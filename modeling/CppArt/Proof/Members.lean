/-
**Moving and destroying containers.**

A move takes the data members of its source. The nodes below the root change hands, and the source keeps
its sentinel and its end leaf (`Handed`); the destructor deletes everything that a container owns.

* `moveConstruct_spec`, `moveAssign_spec`, `moveAssign_self_spec`: the moves;
* `destroy_spec`: the destructor;
* `perform_tethered`: a call that does not empty the container keeps its sentinel right.
-/

import CppArt.Proof.CopyRoot
import CppArt.Proof.World

namespace CppArt

open Table

variable {H K V : Type} {n : ℕ}

section Sentinels

variable [Header H] [HeaderSpec H] {tr : Traits K V n} {s : St H K V n} {mem mem' : Memory (Cell H V)}
  {source : Tree K n} {r e : Addr} {M : Contents n V} {own : Set Addr}

/-! ### Sentinels -/

/-- The sentinel of a container with a root knows it. -/
theorem Holds.tethered (holds : Holds tr s e M own) (root : s.tree.root = some r) : Tethered s := by
  obtain ⟨rest, ctx, -⟩ := holds.path root (tr.defaultTransform tr.defaultKey)
  obtain ⟨-, sentinel, -⟩ := ctx.sentinel
  exact ⟨_, e, sentinel⟩

omit [Header H] [HeaderSpec H] in
/-- The sentinel depends on its own cell. -/
theorem Tethered.frame (tethered : Tethered ⟨mem, source⟩)
    (same : mem'.get source.dummyNode = mem.get source.dummyNode) : Tethered ⟨mem', source⟩ := by
  obtain ⟨p, leaf, sentinel⟩ := tethered
  exact ⟨p, leaf, same.trans sentinel⟩

omit [Header H] [HeaderSpec H] in
theorem Tethered.of_none {p : Option Addr} (root : s.tree.root = none)
    (sentinel : s.mem.get s.tree.dummyNode = some ⟨p, .dummy none e⟩) : Tethered s := by
  refine ⟨p, e, ?_⟩
  rw [root, sentinel]

/-- **The sentinel and the end leaf**, without the nodes of the tree. -/
theorem Holds.bare (holds : Holds tr ⟨mem, source⟩ e M own) :
    Holds tr ⟨mem, source.released⟩ e Table.empty {source.dummyNode, e} where
  whole := by
    obtain ⟨⟨link, sentinel⟩, endLeaf⟩ := holds.sentinel
    exact .empty sentinel endLeaf
  count := by
    rw [size, dom_empty, Set.ncard_empty]
    rfl
  stateless := holds.stateless
  calm := holds.calm

/-- What a container owns besides its sentinel and its end leaf. -/
theorem Holds.rest (holds : Holds tr s e M own) (root : s.tree.root = some r) :
    Rep tr s.mem s.tree.dummyNode r 0 M (own \ {s.tree.dummyNode, e}) := by
  obtain ⟨rest, ctx, rep, clear, rfl⟩ := holds.path root (tr.defaultTransform tr.defaultKey)
  rw [under_zero] at rep
  rwa [Set.union_sdiff_left, clear.symm.sdiff_eq_left]

end Sentinels

section Moves

variable [Variant H] [HeaderSpec H] {tr : Traits K V n} {s : St H K V n} {mem : Memory (Cell H V)}
  {source target : Tree K n} {r e e₀ : Addr} {M M' : Contents n V} {own own' : Set Addr}

/-! ### Taking the root of another container -/

/-- **The nodes of a container have changed hands**: they belong to a container that owned `before`. -/
structure Handed (tr : Traits K V n) (mem : Memory (Cell H V)) (source : Tree K n) (e₀ : Addr)
    (M : Contents n V) (own before : Set Addr) (s' : St H K V n) (e : Addr) : Prop where
  holds : Holds tr s' e M ({s'.tree.dummyNode, e} ∪ own \ {source.dummyNode, e₀})
  left : Holds tr ⟨s'.mem, source.released⟩ e₀ Table.empty {source.dummyNode, e₀}
  same : Memory.Same mem s'.mem {source.dummyNode, e₀}
  keeps : Memory.Keeps mem s'.mem (own ∪ {s'.tree.dummyNode})
  sentinels : ∀ a ∈ ({s'.tree.dummyNode, e} : Set Addr), a ∈ before ∨ mem.next ≤ a
  fresh : ∀ a, mem.next ≤ a → s'.mem.get a ≠ none → a ∈ ({s'.tree.dummyNode, e} : Set Addr)

/-- The memory in which a node is below another sentinel that knows it. -/
def hang (mem : Memory (Cell H V)) (dm e r : Addr) (body : Body H V) : Memory (Cell H V) :=
  (mem.set r ⟨some dm, body⟩).set dm ⟨some dm, .dummy (some r) e⟩

omit [Variant H] [HeaderSpec H] in
/-- **`_M_root->_parent = _M_dummy_node; _M_dummy_node->_root = _M_root;`** -/
theorem adoptRoot_ok {link : Option Addr} {p : Option Addr} {body : Body H V}
    (root : s.tree.root = some r) (top : s.mem.get r = some ⟨p, body⟩) (other : s.tree.dummyNode ≠ r)
    (sentinel : s.mem.get s.tree.dummyNode = some ⟨some s.tree.dummyNode, .dummy link e⟩) :
    adoptRoot s = .ok ⟨⟩ (s.withMem (hang s.mem s.tree.dummyNode e r body)) := by
  let s₁ : St H K V n := s.withMem (s.mem.set r ⟨some s.tree.dummyNode, body⟩)
  have sentinel₁ : s₁.mem.get s₁.tree.dummyNode = some ⟨some s.tree.dummyNode, .dummy link e⟩ :=
    (Memory.set_get_of_ne _ _ other).trans sentinel
  unfold adoptRoot
  rw [Exec.bind_of_ok (this_apply s), root]
  refine (Exec.bind_of_ok (setParent_ok top _) _).trans ?_
  refine (linkDummy_ok sentinel₁).trans ?_
  show EStateM.Result.ok _ (s.withMem (_ : Memory (Cell H V))) = _
  rw [show s₁.tree.root = some r from root]
  rfl

omit [Variant H] [HeaderSpec H] in
theorem adoptRoot_none (root : s.tree.root = none) : adoptRoot s = .ok ⟨⟩ s := by
  unfold adoptRoot
  rw [Exec.bind_of_ok (this_apply s), root]
  rfl

/-- **Another container takes the nodes** below the root of the source. -/
theorem adoptRoot_spec {link : Option Addr} (holds : Holds tr ⟨s.mem, source⟩ e₀ M own)
    (sentinel : s.mem.get s.tree.dummyNode = some ⟨some s.tree.dummyNode, .dummy link e⟩)
    (endLeaf : s.mem.get e = some ⟨some s.tree.dummyNode, .baseLeaf⟩)
    (taken : s.tree = { source with dummyNode := s.tree.dummyNode })
    (apart : s.tree.dummyNode ∉ own ∧ e ∉ own) :
    ∃ mem', adoptRoot s = .ok ⟨⟩ (s.withMem mem') ∧
      Holds tr (s.withMem mem') e M ({s.tree.dummyNode, e} ∪ own \ {source.dummyNode, e₀}) ∧
      Memory.Same s.mem mem' {source.dummyNode, e₀} ∧ Memory.Keeps s.mem mem' (own ∪ {s.tree.dummyNode}) ∧
      mem'.next = s.mem.next ∧ (source.root = none → mem' = s.mem) := by
  have root : s.tree.root = source.root := by rw [taken]
  have count : s.tree.count = size M := by
    rw [taken]
    exact holds.count
  have stateless : s.tree.keyTransform = tr.defaultTransform := by
    rw [taken]
    exact holds.stateless
  have sentinels : {source.dummyNode, e₀} ⊆ own := holds.sentinels_subset
  rcases full : source.root with _ | r
  · have whole := holds.whole
    rw [full] at whole
    obtain ⟨rfl, rfl, -⟩ := whole.of_none
    have whole' : Whole tr s.mem s.tree.dummyNode e s.tree.root Table.empty {s.tree.dummyNode, e} := by
      rw [root, full]
      exact .empty sentinel endLeaf
    refine ⟨s.mem, adoptRoot_none (root.trans full), ⟨?_, count, stateless, holds.calm⟩,
      Memory.Same.refl _ _, Memory.Keeps.refl _ _, rfl, fun _ => rfl⟩
    rw [Set.sdiff_self, Set.union_empty]
    exact whole'
  · have rep := holds.rest full
    obtain ⟨body, top⟩ := rep.top_cell
    have mine := rep.top_mem
    have other : s.tree.dummyNode ≠ r := fun same => apart.1 (same ▸ mine.1)
    have below : e ≠ s.tree.dummyNode := by
      rintro rfl
      rw [endLeaf] at sentinel
      cases sentinel
    have kept : ∀ a, a ≠ r → a ≠ s.tree.dummyNode →
        (hang s.mem s.tree.dummyNode e r body).get a = s.mem.get a := fun a first second =>
      (Memory.set_get_of_ne _ _ second).trans (Memory.set_get_of_ne _ _ first)
    have sentinel₁ : (s.mem.set r ⟨some s.tree.dummyNode, body⟩).get s.tree.dummyNode
        = some ⟨some s.tree.dummyNode, .dummy link e⟩ := (Memory.set_get_of_ne _ _ other).trans sentinel
    have top' : (hang s.mem s.tree.dummyNode e r body).get r = some ⟨some s.tree.dummyNode, body⟩ :=
      (Memory.set_get_of_ne _ _ other.symm).trans (Memory.set_get_self top _)
    have rep' : Rep tr (hang s.mem s.tree.dummyNode e r body) s.tree.dummyNode r 0 M
        (own \ {source.dummyNode, e₀}) := by
      refine rep.reparent top top' fun a inside => kept a inside.2 ?_
      rintro rfl
      exact apart.1 inside.1.1
    refine ⟨hang s.mem s.tree.dummyNode e r body, adoptRoot_ok (root.trans full) top other sentinel,
      ⟨?_, count, stateless, holds.calm⟩, fun a inside => kept a ?_ ?_, ?_, rfl, fun none => ?_⟩
    · show Whole tr _ s.tree.dummyNode e s.tree.root M _
      rw [root, full]
      refine .tree (Memory.set_get_self sentinel₁ _) ((kept e ?_ below).trans endLeaf) rep' ?_
      · exact fun same => apart.2 (same ▸ mine.1)
      · refine Set.disjoint_left.mpr fun a inside inside' => ?_
        rcases inside with rfl | rfl
        · exact apart.1 inside'.1
        · exact apart.2 inside'.1
    · exact fun same => mine.2 (same ▸ inside)
    · rintro rfl
      exact apart.1 (sentinels inside)
    · exact (Memory.keeps_set _ _ (Or.inl mine.1)).trans (Memory.keeps_set _ _ (Or.inr rfl)) fun a => .inl
    · exact absurd none (Option.some_ne_none r)

omit [Variant H] [HeaderSpec H] in
theorem takeMembers_apply (source : Tree K n) (s : St H K V n) :
    takeMembers source s = .ok ⟨⟩ ⟨s.mem, { source with dummyNode := s.tree.dummyNode }⟩ := rfl

/-- **The move constructor** makes a container of two new addresses and the nodes of the source. -/
theorem moveConstruct_spec (target : Tree K n) (holds : Holds tr ⟨mem, source⟩ e₀ M own) :
    ∃ s' e, moveConstruct source ⟨mem, target⟩ = .ok source.released s' ∧
      Handed tr mem source e₀ M own ∅ s' e ∧ Tethered s' := by
  let s₁ : St H K V n := ⟨mem, ⟨source.keyTransform, source.count, target.dummyNode, source.root⟩⟩
  obtain ⟨mem₂, allocated, sentinel, endLeaf, keeps, next⟩ := newDummy_spec (s := s₁) holds.calm
  let s₂ : St H K V n := ⟨mem₂, { source with dummyNode := mem.next }⟩
  have holds₂ : Holds tr ⟨mem₂, source⟩ e₀ M own := holds.frame_keeps keeps (Set.empty_disjoint _)
  have apart : mem.next ∉ own ∧ mem.next + 1 ∉ own := by
    constructor
    · exact fun inside => absurd (holds.lt_next inside) (lt_irrefl _)
    · exact fun inside => absurd (holds.lt_next inside) Nat.not_succ_lt_self
  obtain ⟨mem₃, run, holds₃, same₃, keeps₃, next₃, still⟩ :=
    adoptRoot_spec (s := s₂) holds₂ sentinel endLeaf rfl apart
  have same : Memory.Same mem mem₃ {source.dummyNode, e₀} := by
    refine Memory.Same.trans (fun a inside => ?_) same₃
    exact keeps.get a (Set.notMem_empty a) (holds.lt_next (holds.sentinels_subset inside))
  have keeps' : Memory.Keeps mem mem₃ (own ∪ {mem.next}) :=
    (keeps.mono (Set.empty_subset _)).trans keeps₃ fun a => .inl
  refine ⟨s₂.withMem mem₃, _, ?_, ⟨holds₃, holds.bare.frame same keeps'.failAt, same, keeps', ?_, ?_⟩, ?_⟩
  · unfold moveConstruct
    refine (Exec.bind_of_ok (takeMembers_apply source _) _).trans ?_
    refine (Exec.bind_of_ok allocated _).trans ?_
    refine (Exec.bind_of_ok (Exec.modify_apply _ _) _).trans ?_
    exact Exec.bind_of_ok run _
  · rintro a (rfl | rfl)
    · exact .inr le_rfl
    · exact .inr (Nat.le_succ _)
  · intro a new live
    have bound : a < mem.next + 2 := by
      by_contra beyond
      exact live (mem₃.bounded a (next₃.trans next ▸ not_lt.mp beyond))
    rcases Nat.eq_or_lt_of_le new with same | later
    · exact Or.inl same.symm
    · exact Or.inr (Nat.le_antisymm (Nat.le_of_lt_succ bound) later)
  · rcases full : source.root with _ | r
    · obtain rfl := still full
      exact Tethered.of_none (s := s₂) full sentinel
    · exact holds₃.tethered (r := r) full

/-- **The move assignment** gives the nodes of the source to the target, which forgets its own. -/
theorem moveAssign_spec {e' : Addr} (holds : Holds tr ⟨mem, source⟩ e₀ M own)
    (holds' : Holds tr ⟨mem, target⟩ e' M' own') (apart : Disjoint own own') :
    ∃ s', moveAssign source ⟨mem, target⟩ = .ok source.released s' ∧
      Handed tr mem source e₀ M own own' s' e' ∧
      s'.tree = { source with dummyNode := target.dummyNode } ∧ (source.root = none → s'.mem = mem) := by
  let s₁ : St H K V n := ⟨mem, { source with dummyNode := target.dummyNode }⟩
  obtain ⟨⟨link, sentinel⟩, endLeaf⟩ := holds'.sentinel
  have sentinels : {target.dummyNode, e'} ⊆ own' := holds'.sentinels_subset
  have outside : target.dummyNode ∉ own ∧ e' ∉ own := by
    constructor
    · exact fun inside => Set.disjoint_left.mp apart inside (sentinels (Set.mem_insert _ _))
    · exact fun inside => Set.disjoint_left.mp apart inside (sentinels (Set.mem_insert_of_mem _ rfl))
  obtain ⟨mem₂, run, holds₂, same, keeps, next, still⟩ :=
    adoptRoot_spec (s := s₁) holds sentinel endLeaf rfl outside
  refine ⟨s₁.withMem mem₂, ?_, ⟨holds₂, holds.bare.frame same keeps.failAt, same, keeps,
    fun a inside => .inl (sentinels inside), fun a new live => ?_⟩, rfl, still⟩
  · unfold moveAssign
    refine (Exec.bind_of_ok (takeMembers_apply source _) _).trans ?_
    exact Exec.bind_of_ok run _
  · exact absurd (mem₂.bounded a (next.trans_le new)) live

/-- **The move assignment from itself** writes what is there already. -/
theorem moveAssign_self_spec (holds : Holds tr ⟨mem, source⟩ e₀ M own) :
    ∃ mem', moveAssign source ⟨mem, source⟩ = .ok source.released ⟨mem', source⟩ ∧
      (∀ a, mem'.get a = mem.get a) ∧ mem'.next = mem.next ∧ mem'.failAt = mem.failAt := by
  unfold moveAssign
  rcases root : source.root with _ | r
  · refine ⟨mem, ?_, fun _ => rfl, rfl, rfl⟩
    refine (Exec.bind_of_ok (takeMembers_apply source _) _).trans ?_
    exact Exec.bind_of_ok (adoptRoot_none (s := ⟨mem, source⟩) root) _
  · obtain ⟨body, top⟩ := (holds.rest root).top_cell
    obtain ⟨rest, ctx, -⟩ := holds.path root (tr.defaultTransform tr.defaultKey)
    obtain ⟨-, sentinel, -⟩ := ctx.sentinel
    have knows : mem.get source.dummyNode = some ⟨some source.dummyNode, .dummy (some r) e₀⟩ := by
      rw [← root]
      exact sentinel
    have other : source.dummyNode ≠ r := by
      rintro same
      exact (holds.rest root).top_mem.2 (Or.inl same.symm)
    have sentinel₁ : (mem.set r ⟨some source.dummyNode, body⟩).get source.dummyNode
        = some ⟨some source.dummyNode, .dummy (some r) e₀⟩ := (Memory.set_get_of_ne _ _ other).trans knows
    refine ⟨hang mem source.dummyNode e₀ r body, ?_, fun a => ?_, rfl, rfl⟩
    · refine (Exec.bind_of_ok (takeMembers_apply source _) _).trans ?_
      exact Exec.bind_of_ok (adoptRoot_ok (s := ⟨mem, source⟩) root top other knows) _
    · by_cases first : a = source.dummyNode
      · rw [first, hang, Memory.set_get_self sentinel₁, knows]
      · rw [hang, Memory.set_get_of_ne _ _ first]
        by_cases second : a = r
        · rw [second, Memory.set_get_self top, top]
        · exact Memory.set_get_of_ne _ _ second

/-! ### The destructor -/

/-- **The destructor** deletes everything that a container owns. -/
theorem destroy_spec (holds : Holds tr s e M own) :
    ∃ s', destroy s = .ok ⟨⟩ s' ∧ Memory.Wipes s.mem s'.mem own := by
  obtain ⟨s₁, run, holds₁, moves, wipes⟩ := clear_spec holds
  obtain ⟨⟨link, sentinel⟩, endLeaf⟩ := holds₁.sentinel
  have below : s₁.tree.dummyNode ≠ e := by
    intro same
    rw [same, endLeaf] at sentinel
    cases sentinel
  have sentinel₂ := (Memory.free_get_of_ne s₁.mem below).trans sentinel
  refine ⟨s₁.withMem ((s₁.mem.free e).free s₁.tree.dummyNode), ?_, ?_⟩
  · unfold destroy
    refine (Exec.bind_of_ok run _).trans ?_
    refine (Exec.bind_of_ok (this_apply s₁) _).trans ?_
    refine (Exec.bind_of_ok (load_ok sentinel) _).trans ?_
    refine (Exec.bind_of_ok (delete_ok endLeaf) _).trans ?_
    exact delete_ok (s := s₁.withMem (s₁.mem.free e)) sentinel₂
  · have both := (wipes.trans (Memory.wipes_free _ e)).trans
      (Memory.wipes_free (s₁.mem.free e) s₁.tree.dummyNode)
    have all : (own \ {s.tree.dummyNode, e} ∪ {e}) ∪ {s₁.tree.dummyNode} = own := by
      rw [moves.dummyNode, Set.union_assoc, Set.union_comm {e}, Set.singleton_union]
      exact Set.sdiff_union_of_subset holds.sentinels_subset
    rwa [all] at both

end Moves

/-! ### Calls -/

section Calls

variable [Variant H] [HeaderSpec H] {tr : Traits K V n} {s s' : St H K V n} {e e' r : Addr}
  {M M' : Contents n V} {own own' : Set Addr} {call : Call K V} {answer : Answer}

/-- A drop that leaves nothing removes the only entry. -/
theorem dom_eq_singleton_of_drop {m : Table Byte n V} {k : Key n} (some : m ≠ Table.empty)
    (none : drop m k = Table.empty) : dom m = {k} := by
  rw [eq_empty_iff, dom_drop, Set.sdiff_eq_empty] at none
  rw [Ne, eq_empty_iff] at some
  exact (Set.subset_singleton_iff_eq.mp none).resolve_left some

/-- An insertion leaves an entry. -/
theorem putNew_ne_empty (m : Table Byte n V) (k : Key n) (x : V) : m.putNew k x ≠ Table.empty := by
  rw [Ne, eq_empty_iff, dom_putNew]
  exact (Set.insert_nonempty k (dom m)).ne_empty

/-- **A call that leaves a container without a root** that had one empties it. -/
theorem Call.Effect.empties (holds : Holds tr s e M own) (root : s.tree.root = some r)
    (effect : call.Effect tr s (values M) Table.empty) : call.Empties tr s := by
  have full : values M ≠ Table.empty := by
    intro gone
    rw [eq_empty_iff, dom_values, ← eq_empty_iff] at gone
    subst gone
    exact absurd (root_eq_none holds) (root ▸ Option.some_ne_none r)
  have last : ∀ k, drop (values M) k = Table.empty → s.tree.count = 1 ∧ k ∈ dom M := by
    intro k none
    have only := dom_eq_singleton_of_drop full none
    rw [dom_values] at only
    refine ⟨?_, only ▸ Set.mem_singleton k⟩
    rw [holds.count, size, only, Set.ncard_singleton]
  generalize gone : (Table.empty : Table Byte n V) = m' at effect
  cases effect with
  | insert x => exact absurd gone.symm (putNew_ne_empty _ _ x)
  | emplace x => exact absurd gone.symm (putNew_ne_empty _ _ x)
  | erase k =>
      obtain ⟨one, member⟩ := last _ gone.symm
      obtain ⟨⟨it, v⟩, entry⟩ := exists_of_mem_dom member
      obtain ⟨stored, key⟩ := holds.stored_of_entry entry
      exact ⟨one, it, v, stored, key⟩
  | eraseAt it v stored => exact (last _ gone.symm).1
  | clear => exact count_ne_zero holds root

/-- **A call that does not empty the container** keeps its sentinel right. -/
theorem perform_tethered (holds : Holds tr s e M own) (holds' : Holds tr s' e' M' own')
    (effect : call.Effect tr s (values M) (values M')) (run : perform tr call s = .ok answer s')
    (tethered : Tethered s) (stays : ¬ call.Empties tr s) : Tethered s' := by
  rcases root' : s'.tree.root with _ | r'
  · have gone : values M' = Table.empty := by rw [holds'.eq_empty root', values_empty]
    rw [gone] at effect
    rcases root : s.tree.root with _ | r
    · generalize gone : (Table.empty : Table Byte n V) = m' at effect
      cases effect with
      | insert x => exact absurd gone.symm (putNew_ne_empty _ _ x)
      | emplace x => exact absurd gone.symm (putNew_ne_empty _ _ x)
      | erase k =>
          have still : eraseUnique tr k s = .ok 0 s := by
            unfold eraseUnique
            rw [Exec.bind_of_ok (this_apply s), root]
            rfl
          cases run.symm.trans (Exec.bind_of_ok still _)
          exact tethered
      | eraseAt it v stored =>
          obtain ⟨r, p, top, -⟩ := stored
          rw [root] at top
          cases top
      | clear =>
          have still : clear s = .ok ⟨⟩ ((s.withRoot none).withCount 0) := by
            unfold clear
            rw [Exec.bind_of_ok (this_apply s), root]
            rfl
          cases run.symm.trans (Exec.bind_of_ok still _)
          obtain ⟨p, leaf, sentinel⟩ := tethered
          exact ⟨p, leaf, root ▸ sentinel⟩
    · exact absurd (effect.empties holds root) stays
  · exact holds'.tethered root'

end Calls

end CppArt
