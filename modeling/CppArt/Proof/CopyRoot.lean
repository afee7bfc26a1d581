/-
**Copying a container.**

The copy constructor and the copy assignment copy the tree and make its top the root of the target, below
the sentinel of the target (`Adopted`). `Transplant` is the situation afterwards.

* `Transplant.holds`: where each node of the source is fit to be copied, the target represents the same
  map as the source, shares no address with it, and has the same tree;
* `Transplant.fit`: if the trees are the same, then each node of the source was fit to be copied;
* `copyConstruct_spec`, `copyAssign_spec`: what the target owns before and after (`Duplicate`);
* `copyConstruct_iff`, `copyAssign_iff`: so this is exactly when a copy is right.
-/

import CppArt.Proof.CopyNode
import CppArt.Proof.Duo

namespace CppArt

open Table

variable {H K V : Type} {n : ℕ} [Variant H] [HeaderSpec H] {tr : Traits K V n} {fields : H → H}
  {base : Memory (Cell H V)} {s s₁ s' : St H K V n} {source : Tree K n} {r a dm e : Addr}
  {own : Set Addr}

/-! ### The copied tree -/

/-- **`copy_node`**, when it returns. -/
theorem copyNode_ok {p : Addr} {d : ℕ} {m : Contents n V} (rep : Rep tr base p r d m own)
    (calm : s.mem.failAt = none) (same : Memory.Same base s.mem own)
    (run : copyNode r s = .ok a s₁) : Copying base s r a s₁ := by
  obtain ⟨type, t, typed, rest⟩ := Exec.bind_eq_ok.mp run
  obtain rfl := getType_eq_ok typed
  split_ifs at rest
  · cases rest
  · exact copyAs_ok rep calm same rest

/-- It returns where every node is fit to be copied. -/
theorem copyNode_of_fit {p : Addr} {m : Contents n V} (rep : Rep tr base p r 0 m own)
    (calm : s.mem.failAt = none) (same : Memory.Same base s.mem own) (fit : CopyableBelow fields base r) :
    ∃ a s₁, copyNode r s = .ok a s₁ := by
  obtain ⟨type, typed, notDummy⟩ := rep.getType_ok same
  have enough : n < levels n + 0 := by
    unfold levels
    omega
  obtain ⟨a, s₁, copied⟩ := copyAs_of_fit rep enough calm same
    (fun z q h l below cell => (fit z q h l below cell).1) type typed
  refine ⟨a, s₁, ?_⟩
  unfold copyNode
  rw [Exec.bind_of_ok typed, if_neg notDummy, copied]

/-! ### The new root -/

/-- **The top of a copied tree has become the root** of a container, with the size of the source. -/
structure Adopted (s : St H K V n) (source : Tree K n) (a dm e : Addr) (body : Body H V)
    (s' : St H K V n) : Prop where
  tree : s'.tree = ⟨source.keyTransform, source.count, dm, some a⟩
  top : s'.mem.get a = some ⟨some dm, body⟩
  sentinel : s'.mem.get dm = some ⟨some dm, .dummy (some a) e⟩
  endLeaf : s'.mem.get e = some ⟨some dm, .baseLeaf⟩
  keeps : Memory.Keeps s.mem s'.mem {a, dm}

omit [Variant H] [HeaderSpec H] in
/-- The end of the copy constructor. -/
theorem adopt_construct (source : Tree K n) {p : Option Addr} {body : Body H V}
    (calm : s.mem.failAt = none) (here : s.mem.get a = some ⟨p, body⟩) :
    ∃ s', (do
        setRoot (some a)
        updateCount fun _ => source.count
        let dummy ← newDummy
        modify fun s => { s with tree := { s.tree with dummyNode := dummy } }
        setParent a (some dummy)
        linkDummy
        modify fun s => { s with tree := { s.tree with keyTransform := source.keyTransform } } :
        Run H K V n Unit) s = .ok ⟨⟩ s' ∧
      Adopted s source a s.mem.next (s.mem.next + 1) body s' ∧ s'.mem.next = s.mem.next + 2 := by
  let s₁ : St H K V n := ⟨s.mem, { s.tree with count := source.count, root := some a }⟩
  obtain ⟨mem₂, allocated, sentinel, endLeaf, keeps, next⟩ := newDummy_spec (s := s₁) calm
  have lt := Memory.lt_next_of_get here
  have here₂ : mem₂.get a = some ⟨p, body⟩ := (keeps.get a (Set.notMem_empty a) lt).trans here
  let s₂ : St H K V n := ⟨mem₂, ⟨s.tree.keyTransform, source.count, s.mem.next, some a⟩⟩
  let mem₃ := mem₂.set a ⟨some s.mem.next, body⟩
  have sentinel₃ : mem₃.get s.mem.next = some ⟨some s.mem.next, .dummy none (s.mem.next + 1)⟩ :=
    (Memory.set_get_of_ne _ _ lt.ne').trans sentinel
  let mem₄ := mem₃.set s.mem.next ⟨some s.mem.next, .dummy (some a) (s.mem.next + 1)⟩
  refine ⟨⟨mem₄, ⟨source.keyTransform, source.count, s.mem.next, some a⟩⟩, ?_, ⟨rfl, ?_, ?_, ?_, ?_⟩, next⟩
  · refine (Exec.bind_of_ok (setRoot_apply _ _) _).trans ?_
    refine (Exec.bind_of_ok (updateCount_apply _ _) _).trans ?_
    refine (Exec.bind_of_ok allocated _).trans ?_
    refine (Exec.bind_of_ok (Exec.modify_apply _ _) _).trans ?_
    refine (Exec.bind_of_ok (setParent_ok (s := s₂) here₂ _) _).trans ?_
    refine (Exec.bind_of_ok (linkDummy_ok (s := s₂.withMem mem₃) sentinel₃) _).trans ?_
    exact Exec.modify_apply _ _
  · exact (Memory.set_get_of_ne _ _ lt.ne).trans (Memory.set_get_self here₂ _)
  · exact Memory.set_get_self sentinel₃ _
  · refine (Memory.set_get_of_ne _ _ (Nat.succ_ne_self _)).trans ((Memory.set_get_of_ne _ _ ?_).trans endLeaf)
    exact (lt.trans (Nat.lt_succ_self _)).ne'
  · refine ((keeps.mono (Set.empty_subset {a, s.mem.next})).trans
      (Memory.keeps_set _ _ (Set.mem_insert a _)) fun x => .inl).trans
      (Memory.keeps_set _ _ ?_) fun x => .inl
    exact Set.mem_insert_of_mem a rfl

omit [Variant H] [HeaderSpec H] in
/-- The end of the copy assignment. -/
theorem adopt_assign (source : Tree K n) {p link : Option Addr} {body : Body H V}
    (here : s.mem.get a = some ⟨p, body⟩) (differ : a ≠ s.tree.dummyNode) (other : e ≠ a)
    (below : e ≠ s.tree.dummyNode)
    (sentinel : s.mem.get s.tree.dummyNode = some ⟨some s.tree.dummyNode, .dummy link e⟩)
    (endLeaf : s.mem.get e = some ⟨some s.tree.dummyNode, .baseLeaf⟩) :
    ∃ s', (do
        setRoot (some a)
        updateCount fun _ => source.count
        let tree ← this
        setParent a (some tree.dummyNode)
        linkDummy
        modify fun s => { s with tree := { s.tree with keyTransform := source.keyTransform } } :
        Run H K V n Unit) s = .ok ⟨⟩ s' ∧ Adopted s source a s.tree.dummyNode e body s' ∧
      s'.mem.next = s.mem.next := by
  let s₁ : St H K V n := ⟨s.mem, { s.tree with count := source.count, root := some a }⟩
  let mem₃ := s.mem.set a ⟨some s.tree.dummyNode, body⟩
  have sentinel₃ : mem₃.get s.tree.dummyNode = some ⟨some s.tree.dummyNode, .dummy link e⟩ :=
    (Memory.set_get_of_ne _ _ differ.symm).trans sentinel
  let mem₄ := mem₃.set s.tree.dummyNode ⟨some s.tree.dummyNode, .dummy (some a) e⟩
  refine ⟨⟨mem₄, ⟨source.keyTransform, source.count, s.tree.dummyNode, some a⟩⟩, ?_,
    ⟨rfl, ?_, ?_, ?_, ?_⟩, rfl⟩
  · refine (Exec.bind_of_ok (setRoot_apply _ _) _).trans ?_
    refine (Exec.bind_of_ok (updateCount_apply _ _) _).trans ?_
    refine (Exec.bind_of_ok (this_apply s₁) _).trans ?_
    refine (Exec.bind_of_ok (setParent_ok (s := s₁) here _) _).trans ?_
    refine (Exec.bind_of_ok (linkDummy_ok (s := s₁.withMem mem₃) sentinel₃) _).trans ?_
    exact Exec.modify_apply _ _
  · exact (Memory.set_get_of_ne _ _ differ).trans (Memory.set_get_self here _)
  · exact Memory.set_get_self sentinel₃ _
  · exact (Memory.set_get_of_ne _ _ below).trans ((Memory.set_get_of_ne _ _ other).trans endLeaf)
  · refine (Memory.keeps_set _ _ (Set.mem_insert a _)).trans (Memory.keeps_set _ _ ?_) fun x => .inl
    exact Set.mem_insert_of_mem a rfl

/-! ### The situation after a copy -/

/-- **A tree has been copied** and the copy has become the root of another container. -/
structure Transplant (base : Memory (Cell H V)) (source : Tree K n) (r a dm e : Addr) (own : Set Addr)
    (s s₁ s' : St H K V n) (body : Body H V) : Prop where
  same : Memory.Same base s.mem own
  copying : Copying base s r a s₁
  top : ∃ p, s₁.mem.get a = some ⟨p, body⟩
  adopted : Adopted s₁ source a dm e body s'
  apart : dm ∉ own ∧ e ∉ own
  outside : dm ∉ Memory.fresh s.mem s₁.mem ∧ e ∉ Memory.fresh s.mem s₁.mem

namespace Transplant

variable {e₀ : Addr} {M : Contents n V} {body : Body H V}

omit [HeaderSpec H] in
/-- The nodes of the source are as they were. -/
theorem source_same (plant : Transplant base source r a dm e own s s₁ s' body)
    (old : ∀ y ∈ own, y < s.mem.next) : Memory.Same base s'.mem own := by
  intro y inside
  have copies := plant.copying.copies
  have lt := old y inside
  have keeps := plant.copying.keeps
  have unlike : y ∉ ({a, dm} : Set Addr) := by
    rintro (rfl | rfl)
    · exact absurd copies.top_mem.1 lt.not_ge
    · exact plant.apart.1 inside
  exact (plant.adopted.keeps.get y unlike (lt.trans_le keeps.next_le)).trans
    ((keeps.get y (Set.notMem_empty y) lt).trans (plant.same y inside))

omit [HeaderSpec H] in
/-- The copied tree. -/
theorem copied (plant : Transplant base source r a dm e own s s₁ s' body) :
    Copies base s'.mem r a (Memory.fresh s.mem s₁.mem) := by
  obtain ⟨p, top⟩ := plant.top
  refine plant.copying.copies.reparent top plant.adopted.top fun y inside => ?_
  refine plant.adopted.keeps.get y ?_ inside.1.2
  rintro (rfl | rfl)
  · exact inside.2 rfl
  · exact plant.outside.1 inside.1

/-- What a container owns is allocated in a memory that agrees with its own. -/
theorem old (plant : Transplant base source r a dm e own s s₁ s' body)
    (holds : Holds tr ⟨base, source⟩ e₀ M own) : ∀ y ∈ own, y < s.mem.next := by
  intro y inside
  obtain ⟨cell, here⟩ := holds.whole.live y inside
  exact Memory.lt_next_of_get ((plant.same y inside).trans here)

/-- **The source** is as it was. -/
theorem source_holds (plant : Transplant base source r a dm e own s s₁ s' body)
    (holds : Holds tr ⟨base, source⟩ e₀ M own) (calm : s.mem.failAt = none) :
    Holds tr ⟨s'.mem, source⟩ e₀ M own := by
  refine holds.frame (plant.source_same (plant.old holds)) ?_
  rw [plant.adopted.keeps.failAt, plant.copying.keeps.failAt, calm]
  exact holds.calm.symm

/-- **The target** represents the same map as the source where each node is fit to be copied. -/
theorem holds (plant : Transplant base source r a dm e own s s₁ s' body) (faithful : Faithful fields)
    (holds : Holds tr ⟨base, source⟩ e₀ M own) (root : source.root = some r)
    (calm : s.mem.failAt = none) (fit : CopyableBelow fields base r) :
    ∃ M', Holds tr s' e M' ({dm, e} ∪ Memory.fresh s.mem s₁.mem) ∧ values M' = values M ∧
      SameTree fields s'.mem r a := by
  have old := plant.old holds
  obtain ⟨rest, ctx, rep, -, whole⟩ := holds.path root (tr.defaultTransform tr.defaultKey)
  rw [under_zero] at rep
  have copies := plant.copied
  obtain ⟨M', rep', values'⟩ := copies.represents faithful rep fit plant.adopted.top
  have restIn : rest ⊆ own := by
    rw [whole]
    exact Set.subset_union_right
  have tree := copies.sameTree rep fit ((plant.source_same old).mono restIn)
  have clear : Disjoint {dm, e} (Memory.fresh s.mem s₁.mem) := by
    rw [Set.disjoint_left]
    rintro y (rfl | rfl) inside
    · exact plant.outside.1 inside
    · exact plant.outside.2 inside
  refine ⟨M', ⟨?_, ?_, ?_, ?_⟩, values', tree⟩
  · rw [plant.adopted.tree]
    exact .tree plant.adopted.sentinel plant.adopted.endLeaf rep' clear
  · rw [plant.adopted.tree, ← size_values, values', size_values]
    exact holds.count
  · rw [plant.adopted.tree]
    exact holds.stateless
  · rw [plant.adopted.keeps.failAt, plant.copying.keeps.failAt, calm]

/-- **Only where each node is fit to be copied** are the trees the same. -/
theorem fit (plant : Transplant base source r a dm e own s s₁ s' body)
    (holds : Holds tr ⟨base, source⟩ e₀ M own) (root : source.root = some r)
    (tree : SameTree fields s'.mem r a) : CopyableBelow fields base r := by
  obtain ⟨rest, ctx, rep, -, whole⟩ := holds.path root (tr.defaultTransform tr.defaultKey)
  refine plant.copied.copyable rep ((plant.source_same (plant.old holds)).mono ?_) tree
  rw [whole]
  exact Set.subset_union_right

omit [HeaderSpec H] in
/-- What has changed after a copy, if the sentinel was owned before or is new. -/
theorem keeps (plant : Transplant base source r a dm e own s s₁ s' body) {before : Set Addr}
    (sentinel : dm ∈ before ∨ s.mem.next ≤ dm) : Memory.Keeps s.mem s'.mem before := by
  refine (plant.copying.keeps.mono (Set.empty_subset before)).trans plant.adopted.keeps ?_
  rintro y (rfl | rfl)
  · exact .inr plant.copying.copies.top_mem.1
  · exact sentinel

omit [HeaderSpec H] in
theorem tethered (plant : Transplant base source r a dm e own s s₁ s' body) : Tethered s' := by
  unfold Tethered
  rw [plant.adopted.tree]
  exact ⟨_, _, plant.adopted.sentinel⟩

end Transplant

/-! ### The two ways to copy -/

/-- **Fit to be copied**: each inner node of the container is. -/
def Copyable (fields : H → H) (s : St H K V n) : Prop :=
  ∀ a h l, IsInner s a h l → l.Aligned ∧ fields (copiedHeader l.getType h) = fields h

omit [HeaderSpec H] in
theorem copyable_iff (root : s.tree.root = some r) : Copyable fields s ↔ CopyableBelow fields s.mem r := by
  constructor
  · exact fun fit z p h l below cell => fit z h l ⟨⟨r, root, below⟩, p, cell⟩
  · rintro fit z h l ⟨⟨r', root', below⟩, p, cell⟩
    rw [root, Option.some.injEq] at root'
    subst root'
    exact fit z p h l below cell

omit [HeaderSpec H] in
theorem copyable_of_none (root : s.tree.root = none) : Copyable fields s := by
  rintro z h l ⟨⟨r, root', -⟩, -⟩
  rw [root] at root'
  cases root'

/-- **The target of a copy**: it represents the same map as the source, shares no address with it, and
the trees are the same. -/
structure Copied (fields : H → H) (tr : Traits K V n) (d : Duo H K V n) (m : Table Byte n V) : Prop where
  together : Together tr d m m
  trees : SameRoots fields d

/-- **A target has become a copy** of a container with the map `M`. It owned `before` and owns `after`,
which leaves out the old sentinel only where the source is empty. -/
structure Duplicate (fields : H → H) (tr : Traits K V n) (mem : Memory (Cell H V)) (source : Tree K n)
    (M : Contents n V) (before : Set Addr) (s' : St H K V n) (e : Addr) (M' : Contents n V)
    (after : Set Addr) : Prop where
  holds : Holds tr s' e M' after
  same : values M' = values M
  trees : SameRoots fields ⟨s'.mem, source, s'.tree⟩
  keeps : Memory.Keeps mem s'.mem before
  within : ∀ a ∈ after, a ∈ before ∨ mem.next ≤ a
  kept : source.root ≠ none ∨ before = ∅ → Memory.Renews mem s'.mem before after
  tethered : Tethered s'

section Runs

variable {mem : Memory (Cell H V)} {target : Tree K n} {e₀ e' : Addr} {M M' : Contents n V}
  {own' : Set Addr}

/-- A copy next to its source. -/
theorem Duplicate.copied {before after : Set Addr} {e : Addr} {M' : Contents n V}
    (duplicate : Duplicate fields tr mem source M before s' e M' after)
    (holds : Holds tr ⟨mem, source⟩ e₀ M own) (apart : Disjoint before own) :
    Copied fields tr ⟨s'.mem, source, s'.tree⟩ (values M) := by
  refine ⟨⟨e₀, M, own, e, M', after, holds.frame_keeps duplicate.keeps apart, duplicate.holds, ?_, rfl,
    duplicate.same⟩, duplicate.trees⟩
  refine Set.disjoint_left.mpr fun y inside inside' => ?_
  rcases duplicate.within y inside' with old | new
  · exact Set.disjoint_left.mp apart old inside
  · exact absurd (holds.lt_next inside) new.not_gt

/-- A copy with the same tree was fit to be copied. -/
theorem Transplant.copyable {dm e : Addr} {body : Body H V}
    (plant : Transplant mem source r a dm e own s s₁ s' body) (holds : Holds tr ⟨mem, source⟩ e₀ M own)
    (root : source.root = some r) (trees : SameRoots fields ⟨s'.mem, source, s'.tree⟩) :
    Copyable fields ⟨mem, source⟩ := by
  rw [copyable_iff (s := ⟨mem, source⟩) root]
  rcases trees with ⟨none, -⟩ | ⟨r₀, r', root₀, root', tree⟩
  · rw [root] at none
    cases none
  · cases root₀.symm.trans root
    have top : s'.tree.root = some a := by rw [plant.adopted.tree]
    cases root'.symm.trans top
    exact plant.fit holds root tree

/-! ### The copy constructor -/

/-- The copy constructor of a container with a root returns when `copy_node` does. -/
theorem transplant_construct (holds : Holds tr ⟨mem, source⟩ e₀ M own) (root : source.root = some r)
    (copied : copyNode r ⟨mem, target⟩ = .ok a s₁) :
    ∃ s' body, copyConstruct source ⟨mem, target⟩ = .ok ⟨⟩ s' ∧
      Transplant mem source r a s₁.mem.next (s₁.mem.next + 1) own ⟨mem, target⟩ s₁ s' body ∧
      s'.mem.next = s₁.mem.next + 2 := by
  obtain ⟨rest, ctx, rep, -, whole⟩ := holds.path root (tr.defaultTransform tr.defaultKey)
  have restIn : rest ⊆ own := by
    rw [whole]
    exact Set.subset_union_right
  have copying := copyNode_ok (s := ⟨mem, target⟩) rep holds.calm (Memory.Same.refl _ _) copied
  obtain ⟨⟨p, body⟩, top⟩ := copying.copies.top_cell
  obtain ⟨s', run, adopted, next⟩ := adopt_construct source (copying.keeps.failAt.trans holds.calm) top
  have older : ∀ y ∈ own, y < s₁.mem.next := fun y inside =>
    (holds.lt_next inside).trans_le copying.keeps.next_le
  refine ⟨s', body, ?_, ⟨Memory.Same.refl _ _, copying, ⟨p, top⟩, adopted, ⟨fun inside => ?_,
    fun inside => ?_⟩, fun inside => ?_, fun inside => ?_⟩, next⟩
  · unfold copyConstruct
    rw [if_neg (count_ne_zero holds root), root]
    simp only [deref_some]
    rw [Exec.pure_bind_apply]
    exact (Exec.bind_of_ok copied _).trans run
  · exact absurd (older _ inside) (lt_irrefl _)
  · exact absurd (older _ inside) Nat.not_succ_lt_self
  · exact absurd inside.2 (lt_irrefl _)
  · exact absurd inside.2 Nat.not_succ_lt_self

/-- And when it returns, `copy_node` has returned before. -/
theorem transplant_of_construct (holds : Holds tr ⟨mem, source⟩ e₀ M own) (root : source.root = some r)
    (run : copyConstruct source ⟨mem, target⟩ = .ok ⟨⟩ s') :
    ∃ a dm e s₁ body, Transplant mem source r a dm e own ⟨mem, target⟩ s₁ s' body := by
  have runCopy := run
  unfold copyConstruct at runCopy
  rw [if_neg (count_ne_zero holds root), root] at runCopy
  obtain ⟨r', t, pointed, rest⟩ := Exec.bind_eq_ok.mp runCopy
  cases pointed
  obtain ⟨a, s₁, copiedNode, -⟩ := Exec.bind_eq_ok.mp rest
  obtain ⟨s'', body, run', plant, -⟩ := transplant_construct holds root copiedNode
  rw [run] at run'
  cases run'
  exact ⟨a, _, _, s₁, body, plant⟩

/-- **The copy constructor** leaves the source as it was. -/
theorem copyConstruct_source (holds : Holds tr ⟨mem, source⟩ e₀ M own)
    (stateless : target.keyTransform = tr.defaultTransform)
    (run : copyConstruct source ⟨mem, target⟩ = .ok ⟨⟩ s') : Holds tr ⟨s'.mem, source⟩ e₀ M own := by
  rcases root : source.root with _ | r
  · obtain ⟨t, run', -, keeps, -⟩ := init_spec tr holds.calm target stateless
    unfold copyConstruct at run
    rw [if_pos (count_eq_zero holds root), run'] at run
    cases run
    exact holds.frame_keeps keeps (Set.empty_disjoint _)
  · obtain ⟨a, dm, e, s₁, body, plant⟩ := transplant_of_construct holds root run
    exact plant.source_holds holds holds.calm

/-- **The copy constructor** makes a copy where each node of the source is fit to be copied. -/
theorem copyConstruct_spec (faithful : Faithful fields) (holds : Holds tr ⟨mem, source⟩ e₀ M own)
    (stateless : target.keyTransform = tr.defaultTransform) (fit : Copyable fields ⟨mem, source⟩) :
    ∃ s' e' M' own', copyConstruct source ⟨mem, target⟩ = .ok ⟨⟩ s' ∧
      Duplicate fields tr mem source M ∅ s' e' M' own' := by
  rcases root : source.root with _ | r
  · obtain ⟨s', run, holds', keeps, renews, tethered⟩ := init_spec tr holds.calm target stateless
    obtain rfl := holds.eq_empty root
    refine ⟨s', _, _, _, ?_, holds', rfl, .inl ⟨root, root_eq_none holds'⟩, keeps, renews.within,
      fun _ => renews, tethered⟩
    unfold copyConstruct
    rw [if_pos (count_eq_zero holds root)]
    exact run
  · rw [copyable_iff (s := ⟨mem, source⟩) root] at fit
    obtain ⟨rest, ctx, rep, -, whole⟩ := holds.path root (tr.defaultTransform tr.defaultKey)
    obtain ⟨a, s₁, copiedNode⟩ := copyNode_of_fit (s := ⟨mem, target⟩) rep holds.calm
      (Memory.Same.refl _ _) fit
    obtain ⟨s', body, run, plant, next⟩ := transplant_construct holds root copiedNode
    obtain ⟨M', holds', values', tree⟩ := plant.holds faithful holds root holds.calm fit
    have le : mem.next ≤ s₁.mem.next := plant.copying.keeps.next_le
    have top : s'.tree.root = some a := by rw [plant.adopted.tree]
    have renews : Memory.Renews mem s'.mem ∅
        ({s₁.mem.next, s₁.mem.next + 1} ∪ Memory.fresh mem s₁.mem) := by
      refine ⟨fun y inside => .inr ?_, fun y inside live => ?_⟩
      · rcases inside with (rfl | rfl) | copied
        · exact le
        · exact le.trans (Nat.le_succ _)
        · exact copied.1
      · have new : mem.next ≤ y := inside.resolve_left (Set.notMem_empty y)
        have bound : y < s'.mem.next := by
          by_contra beyond
          exact live (s'.mem.bounded y (not_lt.mp beyond))
        rcases lt_or_ge y s₁.mem.next with copied | later
        · exact Or.inr ⟨new, copied⟩
        · rw [next] at bound
          rcases Nat.eq_or_lt_of_le later with same | later
          · exact Or.inl (Or.inl same.symm)
          · exact Or.inl (Or.inr (Nat.le_antisymm (Nat.le_of_lt_succ bound) later))
    refine ⟨s', _, M', _, run, holds', values', .inr ⟨r, a, root, top, tree⟩, plant.keeps (.inr le),
      renews.within, fun _ => renews, plant.tethered⟩

/-- **Copy construction is right exactly where each node of the source is fit to be copied.** -/
theorem copyConstruct_iff (faithful : Faithful fields) (holds : Holds tr ⟨mem, source⟩ e₀ M own)
    (stateless : target.keyTransform = tr.defaultTransform) (right : Duo H K V n → Prop)
    (trees : ∀ d, right d → SameRoots fields d)
    (copied : ∀ d, d.left = source → Copied fields tr d (values M) → right d) :
    (∃ s', copyConstruct source ⟨mem, target⟩ = .ok ⟨⟩ s' ∧ right ⟨s'.mem, source, s'.tree⟩) ↔
      Copyable fields ⟨mem, source⟩ := by
  constructor
  · rintro ⟨s', run, good⟩
    rcases root : source.root with _ | r
    · exact copyable_of_none root
    · obtain ⟨a, dm, e, s₁, body, plant⟩ := transplant_of_construct holds root run
      exact plant.copyable holds root (trees _ good)
  · intro fit
    obtain ⟨s', e', M', own', run, duplicate⟩ := copyConstruct_spec faithful holds stateless fit
    exact ⟨s', run, copied _ rfl (duplicate.copied holds (Set.empty_disjoint own))⟩

/-! ### The copy assignment -/

/-- The sentinel and the end leaf are owned. -/
theorem Holds.sentinels_subset (holds : Holds tr s e₀ M own) : {s.tree.dummyNode, e₀} ⊆ own := by
  obtain ⟨whole, -⟩ := holds
  generalize s.tree.root = top at whole
  cases whole with
  | empty => exact subset_rfl
  | tree => exact Set.subset_union_left

/-- **A target that has been cleared** to be assigned a copy, in the state `s`. -/
structure Cleared (tr : Traits K V n) (mem : Memory (Cell H V)) (target : Tree K n) (e' : Addr)
    (own own' : Set Addr) (s : St H K V n) : Prop where
  run : clear ⟨mem, target⟩ = .ok ⟨⟩ s
  holds : Holds tr s e' Table.empty {s.tree.dummyNode, e'}
  keeps : Memory.Keeps mem s.mem own'
  renews : Memory.Renews mem s.mem own' {s.tree.dummyNode, e'}
  owned : {s.tree.dummyNode, e'} ⊆ own'
  same : Memory.Same mem s.mem own
  apart : s.tree.dummyNode ∉ own ∧ e' ∉ own

/-- `clear` of the target, before a copy of a container that shares no address with it. -/
theorem cleared_spec (holds : Holds tr ⟨mem, source⟩ e₀ M own)
    (holds' : Holds tr ⟨mem, target⟩ e' M' own') (apart : Disjoint own own') :
    ∃ s, Cleared tr mem target e' own own' s := by
  obtain ⟨s, run, cleared, moves, -⟩ := clear_spec holds'
  have dummy : s.tree.dummyNode = target.dummyNode := moves.dummyNode
  have sentinels : {s.tree.dummyNode, e'} ⊆ own' := dummy ▸ holds'.sentinels_subset
  refine ⟨s, run, dummy ▸ cleared, moves.keeps, dummy ▸ moves.renews, sentinels,
    moves.keeps.same apart.symm fun y inside => holds.lt_next inside, ?_, ?_⟩
  · exact fun inside => Set.disjoint_left.mp apart inside (sentinels (Set.mem_insert _ _))
  · exact fun inside => Set.disjoint_left.mp apart inside (sentinels (Set.mem_insert_of_mem _ rfl))

/-- The copy assignment from a container with a root returns when `copy_node` does, after `clear`. -/
theorem transplant_assign (holds : Holds tr ⟨mem, source⟩ e₀ M own) (root : source.root = some r)
    (cleared : Cleared tr mem target e' own own' s) (copied : copyNode r s = .ok a s₁) :
    ∃ s' body, copyAssign source ⟨mem, target⟩ = .ok ⟨⟩ s' ∧
      Transplant mem source r a s.tree.dummyNode e' own s s₁ s' body ∧ s'.mem.next = s₁.mem.next := by
  obtain ⟨rest, ctx, rep, -, whole⟩ := holds.path root (tr.defaultTransform tr.defaultKey)
  have restIn : rest ⊆ own := by
    rw [whole]
    exact Set.subset_union_right
  have copying := copyNode_ok rep cleared.holds.calm (cleared.same.mono restIn) copied
  have copies := copying.copies
  obtain ⟨⟨p, body⟩, top⟩ := copies.top_cell
  obtain ⟨⟨link, sentinel⟩, endLeaf⟩ := cleared.holds.sentinel
  have dmLt := Memory.lt_next_of_get sentinel
  have endLt := Memory.lt_next_of_get endLeaf
  have aNew := copies.top_mem.1
  have kept : ∀ y < s.mem.next, s₁.mem.get y = s.mem.get y := fun y lt =>
    copying.keeps.get y (Set.notMem_empty y) lt
  have below : e' ≠ s.tree.dummyNode := by
    rintro rfl
    rw [endLeaf] at sentinel
    cases sentinel
  obtain ⟨s', adopt, adopted, next⟩ := adopt_assign (s := s₁) source top
    (by rw [copying.tree]; exact (dmLt.trans_le aNew).ne') (endLt.trans_le aNew).ne
    (by rw [copying.tree]; exact below)
    (by rw [copying.tree]; exact (kept _ dmLt).trans sentinel)
    (by rw [copying.tree]; exact (kept _ endLt).trans endLeaf)
  rw [copying.tree] at adopted
  refine ⟨s', body, ?_, ⟨cleared.same, copying, ⟨p, top⟩, adopted, cleared.apart,
    fun inside => absurd inside.1 dmLt.not_ge, fun inside => absurd inside.1 endLt.not_ge⟩, next⟩
  unfold copyAssign
  refine (Exec.bind_of_ok cleared.run _).trans ?_
  rw [if_neg (count_ne_zero holds root), root]
  simp only [deref_some]
  rw [Exec.pure_bind_apply]
  exact (Exec.bind_of_ok copied _).trans adopt

/-- And when it returns, `copy_node` has returned before. -/
theorem transplant_of_assign (holds : Holds tr ⟨mem, source⟩ e₀ M own) (root : source.root = some r)
    (cleared : Cleared tr mem target e' own own' s)
    (run : copyAssign source ⟨mem, target⟩ = .ok ⟨⟩ s') :
    ∃ a s₁ body, Transplant mem source r a s.tree.dummyNode e' own s s₁ s' body := by
  have runCopy := run
  unfold copyAssign at runCopy
  rw [Exec.bind_of_ok cleared.run, if_neg (count_ne_zero holds root), root] at runCopy
  obtain ⟨r', t, pointed, rest⟩ := Exec.bind_eq_ok.mp runCopy
  cases pointed
  obtain ⟨a, s₁, copiedNode, -⟩ := Exec.bind_eq_ok.mp rest
  obtain ⟨s'', body, run', plant, -⟩ := transplant_assign holds root cleared copiedNode
  rw [run] at run'
  cases run'
  exact ⟨a, s₁, body, plant⟩

/-- **The copy assignment** makes a copy where each node of the source is fit to be copied. -/
theorem copyAssign_spec (faithful : Faithful fields) (holds : Holds tr ⟨mem, source⟩ e₀ M own)
    (holds' : Holds tr ⟨mem, target⟩ e' M' own') (apart : Disjoint own own')
    (fit : Copyable fields ⟨mem, source⟩) :
    ∃ s' e'' M'' own'', copyAssign source ⟨mem, target⟩ = .ok ⟨⟩ s' ∧
      Duplicate fields tr mem source M own' s' e'' M'' own'' := by
  obtain ⟨s, cleared⟩ := cleared_spec holds holds' apart
  have dmLt : s.mem.next ≥ mem.next := cleared.keeps.next_le
  rcases root : source.root with _ | r
  · obtain ⟨s', run, fresh, keeps, renews, tethered⟩ :=
      init_spec tr cleared.holds.calm s.tree cleared.holds.stateless
    obtain rfl := holds.eq_empty root
    refine ⟨s', _, _, _, ?_, fresh, rfl, .inl ⟨root, root_eq_none fresh⟩, ?_, fun y inside => ?_,
      fun full => ?_, tethered⟩
    · unfold copyAssign
      refine (Exec.bind_of_ok cleared.run _).trans ?_
      rw [if_pos (count_eq_zero holds root)]
      exact run
    · exact cleared.keeps.trans keeps fun y none => absurd none (Set.notMem_empty y)
    · exact .inr (dmLt.trans ((renews.within y inside).resolve_left (Set.notMem_empty y)))
    · rcases full with full | none
      · exact absurd root full
      · exact absurd (none ▸ cleared.owned (Set.mem_insert _ _)) (Set.notMem_empty _)
  · rw [copyable_iff (s := ⟨mem, source⟩) root] at fit
    obtain ⟨rest, ctx, rep, -, whole⟩ := holds.path root (tr.defaultTransform tr.defaultKey)
    have restIn : rest ⊆ own := by
      rw [whole]
      exact Set.subset_union_right
    obtain ⟨a, s₁, copiedNode⟩ := copyNode_of_fit rep cleared.holds.calm (cleared.same.mono restIn) fit
    obtain ⟨s', body, run, plant, next⟩ := transplant_assign holds root cleared copiedNode
    obtain ⟨M'', holds'', values', tree⟩ := plant.holds faithful holds root cleared.holds.calm fit
    have top : s'.tree.root = some a := by rw [plant.adopted.tree]
    have keeps : Memory.Keeps s.mem s'.mem {s.tree.dummyNode, e'} := plant.keeps (.inl (Set.mem_insert _ _))
    have renews : Memory.Renews s.mem s'.mem {s.tree.dummyNode, e'}
        ({s.tree.dummyNode, e'} ∪ Memory.fresh s.mem s₁.mem) := by
      refine ⟨fun y inside => inside.imp id fun copied => copied.1, fun y inside live => ?_⟩
      refine inside.imp id fun new => ⟨new, ?_⟩
      by_contra beyond
      exact live (s'.mem.bounded y (next ▸ not_lt.mp beyond))
    have renewed := cleared.renews.trans renews keeps cleared.keeps.next_le
    refine ⟨s', _, M'', _, run, holds'', values', .inr ⟨r, a, root, top, tree⟩,
      cleared.keeps.trans keeps fun y inside => .inl (cleared.owned inside), renewed.within,
      fun _ => renewed, plant.tethered⟩

/-- **Copy assignment is right exactly where each node of the source is fit to be copied.** -/
theorem copyAssign_iff (faithful : Faithful fields) (holds : Holds tr ⟨mem, source⟩ e₀ M own)
    (holds' : Holds tr ⟨mem, target⟩ e' M' own') (apart : Disjoint own own')
    (right : Duo H K V n → Prop) (trees : ∀ d, right d → SameRoots fields d)
    (copied : ∀ d, d.left = source → Copied fields tr d (values M) → right d) :
    (∃ s', copyAssign source ⟨mem, target⟩ = .ok ⟨⟩ s' ∧ right ⟨s'.mem, source, s'.tree⟩) ↔
      Copyable fields ⟨mem, source⟩ := by
  constructor
  · rintro ⟨s', run, good⟩
    rcases root : source.root with _ | r
    · exact copyable_of_none root
    · obtain ⟨s, cleared⟩ := cleared_spec holds holds' apart
      obtain ⟨a, s₁, body, plant⟩ := transplant_of_assign holds root cleared run
      exact plant.copyable holds root (trees _ good)
  · intro fit
    obtain ⟨s', e'', M'', own'', run, duplicate⟩ := copyAssign_spec faithful holds holds' apart fit
    exact ⟨s', run, copied _ rfl (duplicate.copied holds apart.symm)⟩

end Runs

end CppArt
