/-
**When a copy is a copy.**

`IsCopy fields tr d m`: the second of two containers is a copy of the first. The trees are the same down to
the fields of the headers, no node belongs to both, queries have the same answers, iterations visit the same
values, and calls on one container do not change the other.

* `Copied.isCopy`: two containers with the same map and the same tree that share no address;
* `arTree_copy_iff`: in `ar_tree` a copy is a copy exactly where each byte in use in a `_Node_48` has its
  child in the slot with its own number;
* `arPrefixTree_copy_iff`: in `ar_prefix_tree` moreover no `_Node_48` may have a prefix.
-/

import CppArt.Proof.CopyRoot
import CppArt.Proof.OrderedSearch

namespace CppArt

open Table

variable {H K V : Type} {n : ℕ}

/-- Two iterators point to elements with the same value. -/
def SameElement (d : Duo H K V n) (it it' : Addr) : Prop :=
  ∃ v, Stored d.first it v ∧ Stored d.second it' v

/-- **The second container is a copy of the first**, whose reference map is `m`. -/
structure IsCopy [Variant H] (fields : H → H) (tr : Traits K V n) (d : Duo H K V n)
    (m : Table Byte n V) : Prop where
  trees : SameRoots fields d
  root : ∀ r, d.right.root = some r → ∃ body, d.mem.get r = some ⟨some d.right.dummyNode, body⟩
  size : d.right.count = d.left.count
  apart : ∀ x, Reached d.first x → ¬ Reached d.second x
  find : ∀ k, SameAnswer d (find tr k)
  lowerBound : ∀ k, SameAnswer d (lowerBound tr k)
  iterate : ∃ its its', Iterates tr d.first its ∧ Iterates tr d.second its' ∧
    List.Forall₂ (SameElement d) its its'
  independent : ∀ d' m₁ m₂, Interleaved tr d m m d' m₁ m₂ →
    Refines tr d'.first m₁ ∧ Refines tr d'.second m₂

section Same

variable [Variant H] [HeaderSpec H] {tr : Traits K V n} {fields : H → H} {d : Duo H K V n}
  {e e' : Addr} {M M' : Contents n V} {own own' : Set Addr}

/-- Every node that is reached is owned. -/
theorem Holds.mem_of_reached {s : St H K V n} (holds : Holds tr s e M own) {x : Addr}
    (reached : Reached s x) : x ∈ own := by
  obtain ⟨r, root, below⟩ := reached
  obtain ⟨rest, ctx, rep, -, rfl⟩ := holds.path root (tr.defaultTransform tr.defaultKey)
  rw [under_zero] at rep
  obtain ⟨q, d, m, own, rep', inside, -⟩ := rep.at_below below
  exact Or.inr (inside rep'.top_mem)

/-- The entries of a key in two tables with the same values. -/
theorem exists_entry (same : values M = values M') {w : Key n} {it : Addr} {v : V}
    (entry : M w = some (it, v)) : ∃ it', M' w = some (it', v) :=
  values_eq_some.mp ((congrFun same w).symm.trans (values_eq_some.mpr ⟨it, entry⟩))

/-- The leaves of one key in two containers have the same value. -/
theorem sameElement (holds : Holds tr d.first e M own) (holds' : Holds tr d.second e' M' own')
    {w : Key n} {it it' : Addr} {v : V} (entry : M w = some (it, v)) (entry' : M' w = some (it', v)) :
    SameElement d it it' :=
  ⟨v, (holds.stored_of_entry entry).1, (holds'.stored_of_entry entry').1⟩

/-- Iterators that designate the first of the same set of keys are the same answer. -/
theorem sameAnswer_of_designates (holds : Holds tr d.first e M own)
    (holds' : Holds tr d.second e' M' own') (same : values M = values M') {query : Run H K V n Addr}
    {keys : Set (Key n)} {it it' : Addr} (run : query d.first = .ok it d.first)
    (run' : query d.second = .ok it' d.second) (at₁ : Designates M e keys it)
    (at₂ : Designates M' e' keys it') : SameAnswer d query := by
  rcases at₁ with ⟨w, v, entry, first⟩ | ⟨none, rfl⟩
  · rcases at₂ with ⟨w', v', entry', first'⟩ | ⟨none, -⟩
    · obtain rfl : w = w' := first.unique first'
      obtain ⟨it₁, entry₁⟩ := exists_entry same entry
      rw [entry', Option.some.injEq, Prod.mk.injEq] at entry₁
      obtain ⟨rfl, rfl⟩ := entry₁
      obtain ⟨u, stored, stored'⟩ := sameElement holds holds' entry entry'
      exact .element it it' u run run' stored stored'
    · exact absurd first.1 (none ▸ Set.notMem_empty w)
  · rcases at₂ with ⟨w', v', entry', first'⟩ | ⟨-, rfl⟩
    · exact absurd first'.1 (none ▸ Set.notMem_empty w')
    · exact .ended it it' run run' (holds.isEnd_iff.mpr rfl) (holds'.isEnd_iff.mpr rfl)

variable [LawfulVariant H]

/-- **`find`** has the same answer. -/
theorem sameAnswer_find (holds : Holds tr d.first e M own) (holds' : Holds tr d.second e' M' own')
    (same : values M = values M') (k : K) : SameAnswer d (find tr k) := by
  have run := find_spec holds k
  have run' := find_spec holds' k
  rcases entry : M (tr.defaultTransform k) with _ | ⟨it, v⟩
  · have absent : M' (tr.defaultTransform k) = none := by
      rw [← values_eq_none, ← same, values_eq_none, entry]
    rw [entry] at run
    rw [absent] at run'
    exact .ended e e' run run' (holds.isEnd_iff.mpr rfl) (holds'.isEnd_iff.mpr rfl)
  · obtain ⟨it', entry'⟩ := exists_entry same entry
    rw [entry] at run
    rw [entry'] at run'
    obtain ⟨u, stored, stored'⟩ := sameElement holds holds' entry entry'
    exact .element it it' u run run' stored stored'

/-- The end of every bound of a key that departs, in the container that stops there. -/
def EndsOfDeparts (H : Type) [Variant H] [HeaderSpec H] : Prop :=
  ∀ {K V : Type} {n : ℕ} {tr : Traits K V n} {s : St H K V n} {e : Addr} {M : Contents n V}
    {own : Set Addr} {k : K} (accept : Ordering → Bool), Holds tr s e M own →
    Departs (dom M) (tr.defaultTransform k) →
    (∃ a d, ∃ t : St H K V n, Variant.pass tr a (tr.defaultTransform k) d t = .ok none t) →
    bound tr accept k s = .ok e s

/-- **A bound** has the same answer: an element, the end, or a null pointer. -/
theorem sameAnswer_bound (ends : EndsOfDeparts H) (holds : Holds tr d.first e M own)
    (holds' : Holds tr d.second e' M' own') (same : values M = values M') {accept : Ordering → Bool}
    (up : accept .lt = true) (down : accept .gt = false) (k : K) :
    SameAnswer d (bound tr accept k) := by
  have keys : dom M = dom M' := by rw [← dom_values, same, dom_values]
  have accepts : accepted accept M (tr.defaultTransform k)
      = accepted accept M' (tr.defaultTransform k) := by
    unfold accepted
    rw [keys]
  have ended : Departs (dom M) (tr.defaultTransform k) →
      (∃ a d, ∃ t : St H K V n, Variant.pass tr a (tr.defaultTransform k) d t = .ok none t) →
      SameAnswer d (bound tr accept k) := fun departs stopped =>
    .ended e e' (ends accept holds departs stopped) (ends accept holds' (keys ▸ departs) stopped)
      (holds.isEnd_iff.mpr rfl) (holds'.isEnd_iff.mpr rfl)
  have failed : ∀ w, dom M = {w} → w ∉ accepted accept M (tr.defaultTransform k) →
      SameAnswer d (bound tr accept k) := fun w only rejected =>
    .failed .nullPointer _ _ (bound_single holds k only rejected)
      (bound_single holds' k (keys.symm.trans only) (accepts ▸ rejected))
  rcases bound_spec holds up down k with ⟨it, run, right⟩ | ⟨-, departs, a, x, stopped⟩ | ⟨-, w, only, out⟩
  · rcases bound_spec holds' up down k with ⟨it', run', right'⟩ | ⟨-, departs, a, x, stopped⟩ |
      ⟨-, w, only, out⟩
    · rw [← accepts] at right'
      exact sameAnswer_of_designates holds holds' same run run' right right'
    · exact ended (keys ▸ departs) ⟨a, x, _, stopped⟩
    · exact failed w (keys.trans only) (accepts ▸ out)
  · exact ended departs ⟨a, x, _, stopped⟩
  · exact failed w only out

/-- **Two containers with the same map and the same tree** that share no address. -/
theorem Copied.isCopy (admits : Admits H n) (ends : EndsOfDeparts H) {m : Table Byte n V}
    (copied : Copied fields tr d m) : IsCopy fields tr d m := by
  obtain ⟨e, M, own, e', M', own', holds, holds', apart, left, right⟩ := copied.together
  have same : values M = values M' := left.trans right.symm
  have keys : dom M = dom M' := by rw [← dom_values, same, dom_values]
  refine ⟨copied.trees, fun r root => ?_, ?_, fun x reached reached' => ?_,
    sameAnswer_find holds holds' same, sameAnswer_bound ends holds holds' same rfl rfl, ?_, ?_⟩
  · obtain ⟨rest, ctx, rep, -, -⟩ := holds'.path root (tr.defaultTransform tr.defaultKey)
    exact rep.top_cell
  · rw [show d.right.count = size M' from holds'.count, show d.left.count = size M from holds.count,
      ← size_values, ← same, size_values]
  · exact Set.disjoint_left.mp apart (holds.mem_of_reached reached) (holds'.mem_of_reached reached')
  · obtain ⟨ks, lists⟩ := Dir.exists_lists (Set.toFinite (dom M))
    refine ⟨_, _, holds.iterates lists, holds'.iterates (keys ▸ lists), ?_⟩
    rw [List.forall₂_map_left_iff, List.forall₂_map_right_iff, List.forall₂_same]
    intro w listed
    obtain ⟨⟨it, v⟩, entry⟩ := exists_of_mem_dom ((lists.mem_iff w).mp listed)
    obtain ⟨it', entry'⟩ := exists_entry same entry
    rw [leafAt_of_entry entry, leafAt_of_entry entry']
    exact sameElement holds holds' entry entry'
  · intro d' m₁ m₂ run
    obtain ⟨e₁, M₁, own₁, e₂, M₂, own₂, holds₁, holds₂, -, rfl, rfl⟩ :=
      run.together admits copied.together
    exact ⟨holds₁.refines admits, holds₂.refines admits⟩

/-- **Copies of all reachable containers**: construction and assignment. -/
theorem copy_iff (admits : Admits H n) (ends : EndsOfDeparts H) (faithful : Faithful fields)
    (tr : Traits K V n) :
    (∀ (s : St H K V n) (m : Table Byte n V), History tr s m →
      ((∃ s', copyConstruct s.tree ⟨s.mem, Tree.uninitialised tr.defaultTransform⟩ = .ok ⟨⟩ s' ∧
        IsCopy fields tr ⟨s'.mem, s.tree, s'.tree⟩ m) ↔ Copyable fields s)) ∧
    ∀ (d : Duo H K V n) (m m' : Table Byte n V), Coexist tr d m m' →
      ((∃ s', copyAssign d.left d.second = .ok ⟨⟩ s' ∧
        IsCopy fields tr ⟨s'.mem, d.left, s'.tree⟩ m) ↔ Copyable fields d.first) := by
  constructor
  · intro s m history
    obtain ⟨e, M, own, holds, rfl⟩ := history.holds admits
    exact copyConstruct_iff faithful holds rfl (fun d => IsCopy fields tr d (values M))
      (fun d good => good.trees) fun d _ copied => copied.isCopy admits ends
  · intro d m m' coexist
    obtain ⟨e, M, own, e', M', own', holds, holds', apart, rfl, rfl⟩ := coexist.together admits
    exact copyAssign_iff faithful holds holds' apart (fun d => IsCopy fields tr d (values M))
      (fun d good => good.trees) fun d _ copied => copied.isCopy admits ends

omit [LawfulVariant H] in
/-- An inner node has at most as many children as there are elements. -/
theorem Holds.count_le {s : St H K V n} (holds : Holds tr s e M own) {a : Addr} {h : H} {l : Layout}
    (inner : IsInner s a h l) : l.count ≤ size M := by
  obtain ⟨reached, q, cell⟩ := inner
  obtain ⟨p, d, m, own', rep, entries⟩ := holds.at_reached reached
  obtain ⟨sub, parts, -, -⟩ := rep.parts cell
  have bytes : l.branchBytes ⊆ (fun w : Key n => w.letter (branch h)) '' dom M := by
    intro b inside
    obtain ⟨w, member, letter⟩ := parts.child_ne_none.mp ((Layout.mem_branchBytes parts.wf).mp inside)
    exact ⟨w, (entries w member).1, letter⟩
  calc l.count = l.branchBytes.ncard := Layout.count_eq_ncard parts.wf
    _ ≤ ((fun w : Key n => w.letter (branch h)) '' dom M).ncard :=
        Set.ncard_le_ncard bytes (Set.toFinite _)
    _ ≤ size M := Set.ncard_image_le (Set.toFinite _)

omit [LawfulVariant H] in
/-- **Up to sixteen elements** need no `_Node_48`. -/
theorem Holds.not_node48 {s : St H K V n} (holds : Holds tr s e M own) (few : s.tree.count ≤ 16)
    {a : Addr} {h : H} {l : Layout} (inner : IsInner s a h l) : l.getType ≠ .node48 := by
  have count := holds.count_le inner
  rw [← holds.count] at count
  obtain ⟨reached, q, cell⟩ := inner
  obtain ⟨p, d, m, own', rep, -⟩ := holds.at_reached reached
  obtain ⟨sub, parts, -, -⟩ := rep.parts cell
  rw [parts.fits.getType, Layout.typeFor]
  have small : l.count ≤ 16 := count.trans few
  by_cases four : l.count ≤ 4
  · rw [if_pos four]
    decide
  · rw [if_neg four, if_pos small]
    decide

omit [HeaderSpec H] [LawfulVariant H] in
/-- A copy in which `find` of a stored key finds no element is none. -/
theorem not_isCopy_of_fault {m : Table Byte n V} {k : K} {fault : Fault} {t : St H K V n}
    (refines : Refines tr d.first m) (present : m (tr.defaultTransform k) ≠ none)
    (run : (find tr k >>= leafValue) d.second = .error fault t) : ¬ IsCopy fields tr d m := by
  intro copy
  obtain ⟨it, found, ends, -⟩ := refines.find k
  cases copy.find k with
  | element it₁ it' v run₁ run' stored stored' =>
      obtain ⟨r, p, -, -, cell⟩ := stored'
      rw [Exec.bind_of_ok run', leafValue_ok cell] at run
      cases run
  | ended it₁ it' run₁ run' atEnd atEnd' =>
      rw [found] at run₁
      cases run₁
      exact present (ends.mp atEnd)
  | failed fault s s' run₁ run' =>
      rw [found] at run₁
      cases run₁

end Same

/-- The copy constructor of the container `*this`; the memory and the copy are the result. -/
def copyThis [Variant H] (tr : Traits K V n) : Run H K V n Unit := fun s =>
  copyConstruct s.tree ⟨s.mem, Tree.uninitialised tr.defaultTransform⟩

/-- **A copy that loses a key**: of a container made of given values, by evaluation. -/
theorem exists_not_isCopy [Variant H] [HeaderSpec H] [LawfulVariant H] {tr : Traits K V n}
    {fields : H → H} (admits : Admits H n) (xs : List V) (k : K)
    (present : Table.ofList tr xs (tr.defaultTransform k) ≠ none)
    (copied : Exec.value? ((insertAll tr xs >>= fun _ => copyThis tr) (blankState H tr)) = some ⟨⟩)
    (lost : Exec.fault? ((insertAll tr xs >>= fun _ => copyThis tr >>= fun _ =>
      find tr k >>= leafValue) (blankState H tr)) = some .badCast) :
    ∃ (s s' : St H K V n), History tr s (Table.ofList tr xs) ∧
      copyConstruct s.tree ⟨s.mem, Tree.uninitialised tr.defaultTransform⟩ = .ok ⟨⟩ s' ∧
      ¬ IsCopy fields tr ⟨s'.mem, s.tree, s'.tree⟩ (Table.ofList tr xs) := by
  obtain ⟨s, run, history⟩ := insertAll_history (H := H) admits tr xs
  obtain ⟨s', made⟩ := Exec.ok_of_value? run copied
  obtain ⟨t, missed⟩ := Exec.error_of_fault? run lost
  rw [Exec.bind_of_ok made] at missed
  have source : Refines tr ⟨s'.mem, s.tree⟩ (Table.ofList tr xs) := by
    obtain ⟨e, M, own, holds, table⟩ := history.holds admits
    exact table ▸ (copyConstruct_source holds rfl made).refines admits
  exact ⟨s, s', history, made, not_isCopy_of_fault source present missed⟩

/-- Sixteen values need no `_Node_48`. -/
theorem Holds.not_node48_of_list [Variant H] [HeaderSpec H] {tr : Traits K V n} {s : St H K V n} {e : Addr}
    {M : Contents n V} {own : Set Addr} (holds : Holds tr s e M own) {xs : List V}
    (table : values M = Table.ofList tr xs) (few : xs.length ≤ 16) {a : Addr} {h : H} {l : Layout}
    (inner : IsInner s a h l) : l.getType ≠ .node48 := by
  refine holds.not_node48 ?_ inner
  rw [holds.count, ← size_values, table]
  exact (size_ofList_le tr xs).trans few

theorem Layout.aligned_of_ne {l : Layout} (type : l.getType ≠ .node48) : l.Aligned := by
  cases l with
  | node48 nd => exact absurd rfl type
  | node4 nd => trivial
  | node16 nd => trivial
  | node256 nd => trivial

/-! ### `ar_tree` -/

theorem ArTree.endsOfDeparts : EndsOfDeparts DepthHeader := by
  intro K V n tr s e M own k accept holds departs stopped
  obtain ⟨a, d, t, stop⟩ := stopped
  cases stop

theorem ArTree.faithful : Faithful (id : DepthHeader → DepthHeader) where
  branch same := congrArg branch (id same)
  describes {n h h' d k} same describes := by
    obtain rfl : h = h' := same
    exact describes

theorem ArTree.copyable_iff {s : ArTree.State K V n} :
    Copyable id s ↔ ∀ a h l, IsInner s a h l → l.Aligned := by
  have kept : ∀ (type : NodeType) (h : DepthHeader), copiedHeader type h = h := by
    intro type h
    unfold copiedHeader
    split <;> rfl
  constructor
  · exact fun fit a h l inner => (fit a h l inner).1
  · exact fun fit a h l inner => ⟨fit a h l inner, kept _ h⟩

/-- A tree without `_Node_48` is fit to be copied. -/
theorem ArTree.fit_of_ne {s : ArTree.State K V n}
    (small : ∀ a h l, IsInner s a h l → l.getType ≠ .node48) : ∀ a h l, IsInner s a h l → l.Aligned :=
  fun a h l inner => Layout.aligned_of_ne (small a h l inner)

/-- **A copy of an `ar_tree` is a copy** exactly where in each `_Node_48` of the source every byte in use
has its child in the slot with its own number. -/
theorem arTree_copy_iff (tr : Traits K V n) :
    (∀ (s : ArTree.State K V n) (m : Table Byte n V), History tr s m →
      ((∃ s', copyConstruct s.tree ⟨s.mem, Tree.uninitialised tr.defaultTransform⟩ = .ok ⟨⟩ s' ∧
        IsCopy id tr ⟨s'.mem, s.tree, s'.tree⟩ m) ↔ ∀ a h l, IsInner s a h l → l.Aligned)) ∧
    ∀ (d : Duo DepthHeader K V n) (m m' : Table Byte n V), Coexist tr d m m' →
      ((∃ s', copyAssign d.left d.second = .ok ⟨⟩ s' ∧
        IsCopy id tr ⟨s'.mem, d.left, s'.tree⟩ m) ↔
          ∀ a h l, IsInner d.first a h l → l.Aligned) := by
  obtain ⟨construct, assign⟩ := copy_iff trivial ArTree.endsOfDeparts ArTree.faithful tr
  constructor
  · exact fun s m history => (construct s m history).trans ArTree.copyable_iff
  · exact fun d m m' coexist => (assign d m m' coexist).trans ArTree.copyable_iff

/-- A copy of two keys, and an assignment of them to an older container with another key. -/
theorem arTree_copy_pair :
    (∃ s, insertAll (Traits.identity 2) [⟨#v[1, 2]⟩, ⟨#v[1, 3]⟩]
        (blankState DepthHeader (Traits.identity 2)) = .ok ⟨⟩ s ∧
      ∃ s', copyConstruct s.tree ⟨s.mem, Tree.uninitialised id⟩ = .ok ⟨⟩ s' ∧
        IsCopy id (Traits.identity 2) ⟨s'.mem, s.tree, s'.tree⟩
          (Table.ofList (Traits.identity 2) [⟨#v[1, 2]⟩, ⟨#v[1, 3]⟩])) ∧
    ∃ d : Duo DepthHeader (Key 2) (Key 2) 2,
      Coexist (Traits.identity 2) d (Table.ofList (Traits.identity 2) [⟨#v[1, 2]⟩, ⟨#v[1, 3]⟩])
        (Table.ofList (Traits.identity 2) [⟨#v[0, 7]⟩]) ∧
      ∃ s', copyAssign d.left d.second = .ok ⟨⟩ s' ∧
        IsCopy id (Traits.identity 2) ⟨s'.mem, d.left, s'.tree⟩
          (Table.ofList (Traits.identity 2) [⟨#v[1, 2]⟩, ⟨#v[1, 3]⟩]) := by
  constructor
  · obtain ⟨s, run, history⟩ := insertAll_history (H := DepthHeader) trivial (Traits.identity 2)
      [⟨#v[1, 2]⟩, ⟨#v[1, 3]⟩]
    obtain ⟨e, M, own, holds, table⟩ := history.holds trivial
    have fit := ArTree.fit_of_ne fun a h l => holds.not_node48_of_list table (by decide)
    exact ⟨s, run, ((arTree_copy_iff (Traits.identity 2)).1 s _ history).mpr fit⟩
  · obtain ⟨d, coexist⟩ := exists_coexist (H := DepthHeader) trivial (Traits.identity 2)
      [⟨#v[1, 2]⟩, ⟨#v[1, 3]⟩] [⟨#v[0, 7]⟩]
    obtain ⟨e, M, own, -, -, -, holds, -, -, table, -⟩ := coexist.together trivial
    have fit := ArTree.fit_of_ne fun a h l => holds.not_node48_of_list table (by decide)
    exact ⟨d, coexist, ((arTree_copy_iff (Traits.identity 2)).2 d _ _ coexist).mpr fit⟩

/-- The keys `0` to `14`, then `16`, then `15`: the last two get each other's slots. -/
def outOfOrder : List (Key 1) := ((List.finRange 256).take 15 ++ [16, 15]).map fun b => ⟨#v[b]⟩

/-- **A `_Node_48` with two children out of order**: the copy does not find `15`. -/
theorem arTree_copy_loses :
    ∃ (s s' : ArTree.State (Key 1) (Key 1) 1),
      History (Traits.identity 1) s (Table.ofList (Traits.identity 1) outOfOrder) ∧
      copyConstruct s.tree ⟨s.mem, Tree.uninitialised id⟩ = .ok ⟨⟩ s' ∧
      ¬ IsCopy id (Traits.identity 1) ⟨s'.mem, s.tree, s'.tree⟩
        (Table.ofList (Traits.identity 1) outOfOrder) :=
  exists_not_isCopy trivial outOfOrder ⟨#v[15]⟩ (by decide +kernel) (by decide +kernel)
    (by decide +kernel)

/-! ### `ar_prefix_tree` -/

theorem ArPrefixTree.endsOfDeparts : EndsOfDeparts PrefixHeader :=
  fun accept holds departs _ => ArPrefixTree.bound_of_departs holds accept departs

theorem PrefixHeader.fields_of_used {h h' : PrefixHeader} (same : h.used = h'.used) :
    h.depth = h'.depth ∧ h.prefixLength = h'.prefixLength :=
  ⟨show h.used.depth = h'.used.depth by rw [same],
    show h.used.prefixLength = h'.used.prefixLength by rw [same]⟩

theorem PrefixHeader.stored_of_used {h h' : PrefixHeader} (same : h.used = h'.used) {i : ℕ}
    (lt : i < min h.prefixLength maxPrefixLength) : h'.stored[i]? = h.stored[i]? := by
  have inside : i < maxPrefixLength := lt.trans_le (min_le_right _ _)
  have within : i < h.prefixLength := lt.trans_le (min_le_left _ _)
  have length := (PrefixHeader.fields_of_used same).2
  have entry := congrArg (fun header : PrefixHeader => header.stored[i]) same
  simp only [PrefixHeader.used, Vector.getElem_ofFn, ← length, if_pos within] at entry
  rw [Vector.getElem?_eq_getElem inside, Vector.getElem?_eq_getElem inside]
  exact congrArg some entry.symm

theorem ArPrefixTree.faithful : Faithful PrefixHeader.used where
  branch {h h'} same := by
    obtain ⟨depth, length⟩ := PrefixHeader.fields_of_used same
    show h.depth + h.prefixLength = h'.depth + h'.prefixLength
    rw [depth, length]
  describes {n h h' d k} same describes := by
    obtain ⟨depth, spells⟩ := describes
    obtain ⟨depths, length⟩ := PrefixHeader.fields_of_used same
    refine ⟨depths.symm.trans depth, fun i lt => ?_⟩
    rw [← length] at lt
    exact (PrefixHeader.stored_of_used same lt).trans (spells i lt)

/-- A header without a prefix is in use as it is constructed. -/
theorem PrefixHeader.used_plain_iff (h : PrefixHeader) :
    (ArPrefixTree.plainHeader h.depth).used = h.used ↔ h.prefixLength = 0 := by
  constructor
  · exact fun same => (PrefixHeader.fields_of_used same).2.symm
  · intro none
    have stored : ∀ header : PrefixHeader, header.prefixLength = 0 →
        header.used = ⟨header.depth, 0, Vector.ofFn fun _ => 0⟩ := by
      intro header none
      simp [PrefixHeader.used, none]
    rw [stored _ none, stored _ (rfl : (ArPrefixTree.plainHeader h.depth).prefixLength = 0)]
    rfl

theorem ArPrefixTree.copyable_iff {s : ArPrefixTree.State K V n} : Copyable PrefixHeader.used s ↔
    ∀ a h l, IsInner s a h l → l.Aligned ∧ (l.getType = .node48 → h.prefixLength = 0) := by
  have header : ∀ (type : NodeType) (h : PrefixHeader),
      (copiedHeader type h).used = h.used ↔ (type = .node48 → h.prefixLength = 0) := by
    intro type h
    unfold copiedHeader
    split_ifs with large
    · exact (PrefixHeader.used_plain_iff h).trans ⟨fun none _ => none, fun none => none large⟩
    · exact iff_of_true rfl fun is => absurd is large
  unfold Copyable
  simp only [header]

/-- A tree without `_Node_48` is fit to be copied. -/
theorem ArPrefixTree.fit_of_ne {s : ArPrefixTree.State K V n}
    (small : ∀ a h l, IsInner s a h l → l.getType ≠ .node48) :
    ∀ a h l, IsInner s a h l → l.Aligned ∧ (l.getType = .node48 → h.prefixLength = 0) :=
  fun a h l inner => ⟨Layout.aligned_of_ne (small a h l inner), fun large => absurd large (small a h l inner)⟩

/-- **A copy of an `ar_prefix_tree` is a copy** exactly where each `_Node_48` of the source has no prefix
and has the child of every byte in use in the slot with the number of the byte. -/
theorem arPrefixTree_copy_iff (tr : Traits K V n) (fits : n ≤ 65536) :
    (∀ (s : ArPrefixTree.State K V n) (m : Table Byte n V), History tr s m →
      ((∃ s', copyConstruct s.tree ⟨s.mem, Tree.uninitialised tr.defaultTransform⟩ = .ok ⟨⟩ s' ∧
        IsCopy PrefixHeader.used tr ⟨s'.mem, s.tree, s'.tree⟩ m) ↔
          ∀ a h l, IsInner s a h l → l.Aligned ∧ (l.getType = .node48 → h.prefixLength = 0))) ∧
    ∀ (d : Duo PrefixHeader K V n) (m m' : Table Byte n V), Coexist tr d m m' →
      ((∃ s', copyAssign d.left d.second = .ok ⟨⟩ s' ∧
        IsCopy PrefixHeader.used tr ⟨s'.mem, d.left, s'.tree⟩ m) ↔
          ∀ a h l, IsInner d.first a h l → l.Aligned ∧
            (l.getType = .node48 → h.prefixLength = 0)) := by
  obtain ⟨construct, assign⟩ := copy_iff fits ArPrefixTree.endsOfDeparts ArPrefixTree.faithful tr
  constructor
  · exact fun s m history => (construct s m history).trans ArPrefixTree.copyable_iff
  · exact fun d m m' coexist => (assign d m m' coexist).trans ArPrefixTree.copyable_iff

/-- A copy of two keys with a prefix, and an assignment of them to an older container with another key. -/
theorem arPrefixTree_copy_pair :
    (∃ s, insertAll (Traits.identity 2) [⟨#v[1, 2]⟩, ⟨#v[1, 3]⟩]
        (blankState PrefixHeader (Traits.identity 2)) = .ok ⟨⟩ s ∧
      ∃ s', copyConstruct s.tree ⟨s.mem, Tree.uninitialised id⟩ = .ok ⟨⟩ s' ∧
        IsCopy PrefixHeader.used (Traits.identity 2) ⟨s'.mem, s.tree, s'.tree⟩
          (Table.ofList (Traits.identity 2) [⟨#v[1, 2]⟩, ⟨#v[1, 3]⟩])) ∧
    ∃ d : Duo PrefixHeader (Key 2) (Key 2) 2,
      Coexist (Traits.identity 2) d (Table.ofList (Traits.identity 2) [⟨#v[1, 2]⟩, ⟨#v[1, 3]⟩])
        (Table.ofList (Traits.identity 2) [⟨#v[0, 7]⟩]) ∧
      ∃ s', copyAssign d.left d.second = .ok ⟨⟩ s' ∧
        IsCopy PrefixHeader.used (Traits.identity 2) ⟨s'.mem, d.left, s'.tree⟩
          (Table.ofList (Traits.identity 2) [⟨#v[1, 2]⟩, ⟨#v[1, 3]⟩]) := by
  have fits : 2 ≤ 65536 := by decide
  constructor
  · obtain ⟨s, run, history⟩ := insertAll_history (H := PrefixHeader) fits (Traits.identity 2)
      [⟨#v[1, 2]⟩, ⟨#v[1, 3]⟩]
    obtain ⟨e, M, own, holds, table⟩ := history.holds fits
    have fit := ArPrefixTree.fit_of_ne fun a h l => holds.not_node48_of_list table (by decide)
    exact ⟨s, run, ((arPrefixTree_copy_iff (Traits.identity 2) fits).1 s _ history).mpr fit⟩
  · obtain ⟨d, coexist⟩ := exists_coexist (H := PrefixHeader) fits (Traits.identity 2)
      [⟨#v[1, 2]⟩, ⟨#v[1, 3]⟩] [⟨#v[0, 7]⟩]
    obtain ⟨e, M, own, -, -, -, holds, -, -, table, -⟩ := coexist.together fits
    have fit := ArPrefixTree.fit_of_ne fun a h l => holds.not_node48_of_list table (by decide)
    exact ⟨d, coexist, ((arPrefixTree_copy_iff (Traits.identity 2) fits).2 d _ _ coexist).mpr fit⟩

/-- The keys `(1, 0)` to `(1, 16)`. -/
def sharedByte : List (Key 2) := ((List.finRange 256).take 17).map fun b => ⟨#v[1, b]⟩

/-- **A `_Node_48` with a prefix**: the copy does not find `(1, 0)`. -/
theorem arPrefixTree_copy_loses :
    ∃ (s s' : ArPrefixTree.State (Key 2) (Key 2) 2),
      History (Traits.identity 2) s (Table.ofList (Traits.identity 2) sharedByte) ∧
      copyConstruct s.tree ⟨s.mem, Tree.uninitialised id⟩ = .ok ⟨⟩ s' ∧
      ¬ IsCopy PrefixHeader.used (Traits.identity 2) ⟨s'.mem, s.tree, s'.tree⟩
        (Table.ofList (Traits.identity 2) sharedByte) :=
  exists_not_isCopy (by decide : 2 ≤ 65536) sharedByte ⟨#v[1, 0]⟩ (by decide +kernel) (by decide +kernel)
    (by decide +kernel)

end CppArt
