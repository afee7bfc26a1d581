/-
**The path of a key, from the sentinel down to a hole.**

`Ctx tr mem dm e root k M S p c d own` is a tree with one subtree left out: the nodes on the path of
the key `k` from the sentinel `dm` (with end leaf `e`) down to `p`, and everything that hangs beside the
path. The hole is the slot of `p` that holds `c`; what belongs there is the part of the table `M` below
the first `d` bytes of `k`. `own` are the addresses outside of the hole.

The nodes on the path exist for a set `S` of keys. It is the set of stored keys, except between the
restructuring for a new key and its insertion, when it has the new key already.

* `Ctx.close`: a hole is filled by what represents its part of the table;
* `PathNode.of_rep`: an inner node on the path of `k` opens a hole one level further down;
* `updateChildPtr_spec`: the slot of the hole is redirected;
* `Ctx.locate`: the path to the leaf of a stored key.
-/

import CppArt.Proof.Rep

namespace CppArt

open Table

variable {H K V : Type} {n : ℕ} [Header H] [HeaderSpec H]

/-- A node on the path of `k`, without the subtree of `k`'s own byte. -/
structure PathNode (tr : Traits K V n) (mem : Memory (Cell H V)) (k : Key n) (M : Contents n V)
    (p a : Addr) (d : ℕ) (h : H) (l : Layout) (sub : Byte → Set Addr) : Prop where
  cell : mem.get a = some ⟨some p, .inner h l⟩
  wf : l.WF
  bound : branch h < n
  shared : ∀ v ∈ dom (under M k d), Word.Agree (branch h) k v
  describes : Describes h d k
  bare : ∀ b, b ≠ k.letter (branch h) → l.child b = none →
    fiber (under M k d) (branch h) b = empty ∧ sub b = ∅
  kid : ∀ b, b ≠ k.letter (branch h) → ∀ c, l.child b = some c →
    Rep tr mem a c (branch h + 1) (fiber (under M k d) (branch h) b) (sub b)
  hole : sub (k.letter (branch h)) = ∅
  apart : ∀ b, a ∉ sub b
  disjoint : ∀ b b', b ≠ b' → Disjoint (sub b) (sub b')

/-- The addresses of a node on the path and of what hangs beside the path there. -/
abbrev around (a : Addr) (sub : Byte → Set Addr) : Set Addr := insert a (⋃ b, sub b)

theorem mem_around_of_sub {a x : Addr} {sub : Byte → Set Addr} {b : Byte} (inside : x ∈ sub b) :
    x ∈ around a sub := Or.inr (Set.mem_iUnion.mpr ⟨b, inside⟩)

/-- **A tree with a hole.** -/
inductive Ctx (tr : Traits K V n) (mem : Memory (Cell H V)) (dm e : Addr) (root : Option Addr)
    (k : Key n) (M : Contents n V) (S : Set (Key n)) : Addr → Addr → ℕ → Set Addr → Prop
  | top {c : Addr}
      (sentinel : mem.get dm = some ⟨some dm, .dummy root e⟩)
      (endLeaf : mem.get e = some ⟨some dm, .baseLeaf⟩)
      (link : root = some c) :
      Ctx tr mem dm e root k M S dm c 0 {dm, e}
  | step {p a c : Addr} {d : ℕ} {own : Set Addr} {h : H} {l : Layout} {sub : Byte → Set Addr}
      (outer : Ctx tr mem dm e root k M S p a d own)
      (node : PathNode tr mem k M p a d h l sub)
      (slot : l.child (k.letter (branch h)) = some c)
      (fits : l.Fits l.count)
      (broad : Broad H (branch h) {v | Word.Agree d k v ∧ v ∈ S})
      (clear : Disjoint own (around a sub)) :
      Ctx tr mem dm e root k M S a c (branch h + 1) (own ∪ around a sub)

/-- **The nodes of a container** and the table they represent. -/
inductive Whole (tr : Traits K V n) (mem : Memory (Cell H V)) (dm e : Addr) :
    Option Addr → Contents n V → Set Addr → Prop
  | empty {link : Option Addr}
      (sentinel : mem.get dm = some ⟨some dm, .dummy link e⟩)
      (endLeaf : mem.get e = some ⟨some dm, .baseLeaf⟩) :
      Whole tr mem dm e none Table.empty {dm, e}
  | tree {r : Addr} {M : Contents n V} {own : Set Addr}
      (sentinel : mem.get dm = some ⟨some dm, .dummy (some r) e⟩)
      (endLeaf : mem.get e = some ⟨some dm, .baseLeaf⟩)
      (rep : Rep tr mem dm r 0 M own)
      (clear : Disjoint {dm, e} own) :
      Whole tr mem dm e (some r) M ({dm, e} ∪ own)

theorem dom_under (M : Contents n V) (k : Key n) (d : ℕ) :
    dom (under M k d) = {v | Word.Agree d k v ∧ v ∈ dom M} := by
  ext v
  exact mem_dom_under

/-! ### A node on the path -/

namespace PathNode

variable {tr : Traits K V n} {mem mem' : Memory (Cell H V)} {k : Key n} {M M' : Contents n V}
  {p a : Addr} {d : ℕ} {h : H} {l : Layout} {sub : Byte → Set Addr}

theorem depth_le (node : PathNode tr mem k M p a d h l sub) : d ≤ branch h :=
  HeaderSpec.depth_le node.describes

theorem frame (node : PathNode tr mem k M p a d h l sub)
    (same : Memory.Same mem mem' (around a sub)) : PathNode tr mem' k M p a d h l sub where
  cell := (same a (Set.mem_insert a _)).trans node.cell
  wf := node.wf
  bound := node.bound
  shared := node.shared
  describes := node.describes
  bare := node.bare
  kid b other c child := (node.kid b other c child).frame
    (same.mono fun _ inside => mem_around_of_sub inside)
  hole := node.hole
  apart := node.apart
  disjoint := node.disjoint

/-- Only the keys below `k`'s byte are of no concern to a node on the path of `k`. -/
theorem update (node : PathNode tr mem k M p a d h l sub)
    (same : ∀ v, ¬ Word.Agree (branch h + 1) k v → M' v = M v) :
    PathNode tr mem k M' p a d h l sub := by
  have fibers : ∀ b, b ≠ k.letter (branch h) →
      fiber (under M' k d) (branch h) b = fiber (under M k d) (branch h) b :=
    fun b other => fiber_under_congr other same
  refine ⟨node.cell, node.wf, node.bound, fun v member => ?_, node.describes, fun b other none => ?_,
    fun b other c child => ?_, node.hole, node.apart, node.disjoint⟩
  · by_cases agree : Word.Agree (branch h + 1) k v
    · exact agree.mono (Nat.le_succ _)
    · refine node.shared v ?_
      rw [mem_dom_under] at member ⊢
      refine ⟨member.1, ?_⟩
      rw [mem_dom, ← same v agree]
      exact member.2
  · rw [fibers b other]
    exact node.bare b other none
  · rw [fibers b other]
    exact node.kid b other c child

/-- **A node whose children changed at `k`'s byte only.** -/
theorem relink (node : PathNode tr mem k M p a d h l sub) {p' : Addr} {l' : Layout}
    (cell' : mem'.get a = some ⟨some p', .inner h l'⟩) (wf' : l'.WF)
    (children : ∀ b, b ≠ k.letter (branch h) → l'.child b = l.child b)
    (same : ∀ b, Memory.Same mem mem' (sub b)) : PathNode tr mem' k M p' a d h l' sub where
  cell := cell'
  wf := wf'
  bound := node.bound
  shared := node.shared
  describes := node.describes
  bare b other none := node.bare b other ((children b other).symm.trans none)
  kid b other c child :=
    (node.kid b other c ((children b other).symm.trans child)).frame (same b)
  hole := node.hole
  apart := node.apart
  disjoint := node.disjoint

/-- **The hole of a node is filled.** -/
theorem fill (node : PathNode tr mem k M p a d h l sub) {c : Addr} {own : Set Addr}
    (slot : l.child (k.letter (branch h)) = some c) (fits : l.Fits l.count)
    (broad : Broad H (branch h) (dom (under M k d)))
    (rep : Rep tr mem a c (branch h + 1) (under M k (branch h + 1)) own)
    (clear : Disjoint (around a sub) own) :
    Rep tr mem p a d (under M k d) (around a sub ∪ own) := by
  have fiberHere : fiber (under M k d) (branch h) (k.letter (branch h)) = under M k (branch h + 1) :=
    fiber_under node.depth_le node.shared
  let sub' : Byte → Set Addr := Function.update sub (k.letter (branch h)) own
  have here : sub' (k.letter (branch h)) = own := Function.update_self _ _ _
  have there : ∀ b, b ≠ k.letter (branch h) → sub' b = sub b :=
    fun b other => Function.update_of_ne other _ _
  have owned : around a sub ∪ own = insert a (⋃ b, sub' b) := by
    ext x
    simp only [Set.mem_union, Set.mem_insert_iff, Set.mem_iUnion]
    constructor
    · rintro ((rfl | ⟨b, inside⟩) | inside)
      · exact .inl rfl
      · have other : b ≠ k.letter (branch h) := by
          rintro rfl
          rw [node.hole] at inside
          exact inside
        exact .inr ⟨b, by rwa [there b other]⟩
      · exact .inr ⟨_, by rwa [here]⟩
    · rintro (rfl | ⟨b, inside⟩)
      · exact .inl (.inl rfl)
      · by_cases same : b = k.letter (branch h)
        · rw [same, here] at inside
          exact .inr inside
        · rw [there b same] at inside
          exact .inl (.inr ⟨b, inside⟩)
  have outside : ∀ b, Disjoint (sub b) own := fun b =>
    clear.mono_left fun x inside => mem_around_of_sub inside
  rw [owned]
  refine .inner node.cell node.wf fits node.bound
    (fun v member w member' => (node.shared v member).symm.trans (node.shared w member'))
    (fun v member => HeaderSpec.describes_congr (node.shared v member) node.describes) broad
    (fun b none => ?_) (fun b c' child => ?_) (fun b => ?_) fun b b' other => ?_
  · have other : b ≠ k.letter (branch h) := by
      rintro rfl
      rw [slot] at none
      cases none
    rw [there b other]
    exact node.bare b other none
  · by_cases same : b = k.letter (branch h)
    · subst same
      rw [slot, Option.some.injEq] at child
      subst child
      rw [here, fiberHere]
      exact rep
    · rw [there b same]
      exact node.kid b same c' child
  · by_cases same : b = k.letter (branch h)
    · rw [same, here]
      exact fun inside => Set.disjoint_left.mp clear (Set.mem_insert a _) inside
    · rw [there b same]
      exact node.apart b
  · by_cases same : b = k.letter (branch h)
    · rw [same, here, there b' fun same' => other (same.trans same'.symm)]
      exact (outside b').symm
    · by_cases same' : b' = k.letter (branch h)
      · rw [same', here, there b same]
        exact outside b
      · rw [there b same, there b' same']
        exact node.disjoint b b' other

end PathNode

/-- **An inner node on the path of `k` opens a hole.** -/
theorem PathNode.of_rep {tr : Traits K V n} {mem : Memory (Cell H V)} {k : Key n} {M : Contents n V}
    {p a : Addr} {d : ℕ} {own : Set Addr} {h : H} {l : Layout}
    (rep : Rep tr mem p a d (under M k d) own) (cell : mem.get a = some ⟨some p, .inner h l⟩)
    (shared : ∀ v ∈ dom (under M k d), Word.Agree (branch h) k v) :
    ∃ (sub : Byte → Set Addr) (rest : Set Addr), PathNode tr mem k M p a d h l sub ∧
      l.Fits l.count ∧ Broad H (branch h) (dom (under M k d)) ∧
      own = around a sub ∪ rest ∧ Disjoint (around a sub) rest ∧
      (l.child (k.letter (branch h)) = none → under M k (branch h + 1) = empty ∧ rest = ∅) ∧
      ∀ c, l.child (k.letter (branch h)) = some c →
        Rep tr mem a c (branch h + 1) (under M k (branch h + 1)) rest := by
  generalize table : under M k d = m at rep shared
  cases rep with
  | leaf cell' le =>
      rw [cell, Option.some.injEq, Cell.mk.injEq] at cell'
      cases cell'.2
  | @inner _ _ _ _ h₀ l₀ sub cell' wf fits bound shared' describes broad bare kid apart disjoint =>
      rw [cell, Option.some.injEq, Cell.mk.injEq, Body.inner.injEq] at cell'
      obtain ⟨-, rfl, rfl⟩ := cell'
      subst table
      obtain ⟨v, member⟩ := (HeaderSpec.broad_nontrivial broad).nonempty
      have describesK : Describes h d k :=
        HeaderSpec.describes_congr (shared v member).symm (describes v member)
      have fiberHere : fiber (under M k d) (branch h) (k.letter (branch h))
          = under M k (branch h + 1) := fiber_under (HeaderSpec.depth_le describesK) shared
      let sub' : Byte → Set Addr := Function.update sub (k.letter (branch h)) ∅
      have here : sub' (k.letter (branch h)) = ∅ := Function.update_self _ _ _
      have there : ∀ b, b ≠ k.letter (branch h) → sub' b = sub b :=
        fun b other => Function.update_of_ne other _ _
      have less : ∀ b, sub' b ⊆ sub b := by
        intro b
        by_cases same : b = k.letter (branch h)
        · rw [same, here]
          exact Set.empty_subset _
        · rw [there b same]
      refine ⟨sub', sub (k.letter (branch h)), ⟨cell, wf, bound, shared, describesK, ?_, ?_, here, ?_,
        ?_⟩, fits, broad, ?_, ?_, ?_, ?_⟩
      · intro b other none
        rw [there b other]
        exact bare b none
      · intro b other c child
        rw [there b other]
        exact kid b c child
      · exact fun b inside => apart b (less b inside)
      · exact fun b b' other => (disjoint b b' other).mono (less b) (less b')
      · ext x
        simp only [Set.mem_union, Set.mem_insert_iff, Set.mem_iUnion]
        constructor
        · rintro (rfl | ⟨b, inside⟩)
          · exact .inl (.inl rfl)
          · by_cases same : b = k.letter (branch h)
            · exact .inr (same ▸ inside)
            · exact .inl (.inr ⟨b, by rwa [there b same]⟩)
        · rintro ((rfl | ⟨b, inside⟩) | inside)
          · exact .inl rfl
          · exact .inr ⟨b, less b inside⟩
          · exact .inr ⟨_, inside⟩
      · rw [Set.disjoint_insert_left, Set.disjoint_iUnion_left]
        refine ⟨apart _, fun b => ?_⟩
        by_cases same : b = k.letter (branch h)
        · rw [same, here]
          exact Set.empty_disjoint _
        · rw [there b same]
          exact disjoint b _ same
      · intro none
        rw [← fiberHere]
        exact bare _ none
      · intro c child
        rw [← fiberHere]
        exact kid _ c child

/-- **A node without a child for `k`'s byte** represents its part of the table. -/
theorem PathNode.seal {tr : Traits K V n} {mem : Memory (Cell H V)} {k : Key n} {M : Contents n V}
    {p a : Addr} {d : ℕ} {h : H} {l : Layout} {sub : Byte → Set Addr}
    (node : PathNode tr mem k M p a d h l sub) (missing : l.child (k.letter (branch h)) = none)
    (vacant : under M k (branch h + 1) = empty) (fits : l.Fits l.count)
    (broad : Broad H (branch h) (dom (under M k d))) :
    Rep tr mem p a d (under M k d) (around a sub) := by
  have fiberHere : fiber (under M k d) (branch h) (k.letter (branch h)) = empty :=
    (fiber_under node.depth_le node.shared).trans vacant
  refine .inner node.cell node.wf fits node.bound
    (fun v member w member' => (node.shared v member).symm.trans (node.shared w member'))
    (fun v member => HeaderSpec.describes_congr (node.shared v member) node.describes) broad
    (fun b none => ?_) (fun b c child => ?_) node.apart node.disjoint
  · by_cases same : b = k.letter (branch h)
    · subst same
      exact ⟨fiberHere, node.hole⟩
    · exact node.bare b same none
  · refine node.kid b ?_ c child
    rintro rfl
    rw [missing] at child
    cases child

/-! ### The path -/

section Ctx

variable {tr : Traits K V n} {mem mem' : Memory (Cell H V)} {dm e : Addr} {root : Option Addr}
  {k : Key n} {M M' : Contents n V} {S S' : Set (Key n)} {p c : Addr} {d : ℕ} {own : Set Addr}

theorem Ctx.frame (ctx : Ctx tr mem dm e root k M S p c d own)
    (same : Memory.Same mem mem' own) : Ctx tr mem' dm e root k M S p c d own := by
  induction ctx with
  | top sentinel endLeaf link =>
      exact .top ((same dm (Or.inl rfl)).trans sentinel) ((same e (Or.inr rfl)).trans endLeaf) link
  | step outer node slot fits broad clear ih =>
      exact .step (ih (same.mono Set.subset_union_left))
        (node.frame (same.mono Set.subset_union_right)) slot fits broad clear

/-- The keys below the hole may change as long as the nodes on the path are needed. -/
theorem Ctx.update (ctx : Ctx tr mem dm e root k M S p c d own)
    (same : ∀ v, ¬ Word.Agree d k v → M' v = M v)
    (needed : ∀ r d', d' ≤ r → r < d → Broad H r {v | Word.Agree d' k v ∧ v ∈ S} →
      Broad H r {v | Word.Agree d' k v ∧ v ∈ S'}) : Ctx tr mem dm e root k M' S' p c d own := by
  induction ctx with
  | top sentinel endLeaf link => exact .top sentinel endLeaf link
  | @step p a c d own h l sub outer node slot fits broad clear ih =>
      refine .step (ih (fun v apart => same v fun agree => apart (agree.mono ?_))
        fun r d' le lt => needed r d' le (lt.trans_le ?_)) (node.update same) slot fits
        (needed (branch h) d node.depth_le (Nat.lt_succ_self _) broad) clear
      · exact node.depth_le.trans (Nat.le_succ _)
      · exact node.depth_le.trans (Nat.le_succ _)

/-- The nodes on a path exist for the key of the path as well. -/
theorem Ctx.anticipate (ctx : Ctx tr mem dm e root k M (dom M) p c d own) :
    Ctx tr mem dm e root k M (insert k (dom M)) p c d own :=
  ctx.update (fun _ _ => rfl) fun _ _ _ _ =>
    HeaderSpec.broad_mono fun _ inside => ⟨inside.1, Or.inr inside.2⟩

theorem Ctx.depth_le (ctx : Ctx tr mem dm e root k M S p c d own) : d ≤ n := by
  cases ctx with
  | top => exact Nat.zero_le n
  | step outer node slot fits broad clear => exact node.bound

theorem Ctx.sentinel (ctx : Ctx tr mem dm e root k M S p c d own) :
    (∃ r, root = some r) ∧ mem.get dm = some ⟨some dm, .dummy root e⟩ ∧
      mem.get e = some ⟨some dm, .baseLeaf⟩ ∧ dm ∈ own ∧ e ∈ own := by
  induction ctx with
  | top sentinel endLeaf link => exact ⟨⟨_, link⟩, sentinel, endLeaf, Or.inl rfl, Or.inr rfl⟩
  | step outer node slot fits broad clear ih =>
      obtain ⟨some, sentinel, endLeaf, memDm, memE⟩ := ih
      exact ⟨some, sentinel, endLeaf, Or.inl memDm, Or.inl memE⟩

/-- Only the root hangs below the sentinel. -/
theorem Ctx.depth_eq_zero (ctx : Ctx tr mem dm e root k M S p c d own) (top : p = dm) : d = 0 := by
  cases ctx with
  | top => rfl
  | step outer node slot fits broad clear =>
      have inner := node.cell
      rw [top, outer.sentinel.2.1] at inner
      cases inner

/-- A hole below the sentinel is at the root. -/
theorem Ctx.root_eq (ctx : Ctx tr mem dm e root k M S p c d own) (top : p = dm) : root = some c := by
  cases ctx with
  | top sentinel endLeaf link => exact link
  | step outer node slot fits broad clear =>
      have inner := node.cell
      rw [top, outer.sentinel.2.1] at inner
      cases inner

theorem Ctx.links_subset (ctx : Ctx tr mem dm e root k M S p c d own) : {p, dm} ⊆ own := by
  rintro x (rfl | rfl)
  · cases ctx with
    | top => exact Or.inl rfl
    | step => exact Or.inr (Set.mem_insert _ _)
  · exact ctx.sentinel.2.2.2.1

theorem PathNode.live {p a : Addr} {h : H} {l : Layout} {sub : Byte → Set Addr}
    (node : PathNode tr mem k M p a d h l sub) : ∀ x ∈ around a sub, ∃ cell, mem.get x = some cell := by
  rintro x (rfl | inside)
  · exact ⟨_, node.cell⟩
  · obtain ⟨b, inside⟩ := Set.mem_iUnion.mp inside
    by_cases same : b = k.letter (branch h)
    · rw [same, node.hole] at inside
      exact absurd inside (Set.notMem_empty x)
    · rcases child : l.child b with _ | c
      · rw [(node.bare b same child).2] at inside
        exact absurd inside (Set.notMem_empty x)
      · exact (node.kid b same c child).live x inside

theorem Ctx.live (ctx : Ctx tr mem dm e root k M S p c d own) :
    ∀ x ∈ own, ∃ cell, mem.get x = some cell := by
  induction ctx with
  | top sentinel endLeaf link =>
      rintro x (rfl | rfl)
      · exact ⟨_, sentinel⟩
      · exact ⟨_, endLeaf⟩
  | step outer node slot fits broad clear ih =>
      rintro x (inside | inside)
      · exact ih x inside
      · exact node.live x inside

theorem Ctx.lt_next (ctx : Ctx tr mem dm e root k M S p c d own) {x : Addr} (member : x ∈ own) :
    x < mem.next := by
  obtain ⟨cell, here⟩ := ctx.live x member
  exact Memory.lt_next_of_get here

/-- **A hole is filled**, and the whole container is represented. -/
theorem Ctx.close (ctx : Ctx tr mem dm e root k M (dom M) p c d own) {rest : Set Addr}
    (rep : Rep tr mem p c d (under M k d) rest) (clear : Disjoint own rest) :
    Whole tr mem dm e root M (own ∪ rest) := by
  induction ctx generalizing rest with
  | top sentinel endLeaf link =>
      subst link
      rw [under_zero] at rep
      exact .tree sentinel endLeaf rep clear
  | @step p a c d own h l sub outer node slot fits broad clear' ih =>
      rw [Set.union_assoc]
      rw [← dom_under] at broad
      have split := Set.disjoint_union_left.mp clear
      exact ih (node.fill slot fits broad rep split.2)
        (Set.disjoint_union_right.mpr ⟨clear', split.1⟩)

theorem Whole.frame (whole : Whole tr mem dm e root M own) (same : Memory.Same mem mem' own) :
    Whole tr mem' dm e root M own := by
  cases whole with
  | empty sentinel endLeaf =>
      exact .empty ((same dm (Or.inl rfl)).trans sentinel) ((same e (Or.inr rfl)).trans endLeaf)
  | tree sentinel endLeaf rep clear =>
      exact .tree ((same dm (Or.inl (Or.inl rfl))).trans sentinel)
        ((same e (Or.inl (Or.inr rfl))).trans endLeaf)
        (rep.frame (same.mono Set.subset_union_right)) clear

theorem Whole.live (whole : Whole tr mem dm e root M own) :
    ∀ x ∈ own, ∃ cell, mem.get x = some cell := by
  cases whole with
  | empty sentinel endLeaf =>
      rintro x (rfl | rfl)
      · exact ⟨_, sentinel⟩
      · exact ⟨_, endLeaf⟩
  | tree sentinel endLeaf rep clear =>
      rintro x ((rfl | rfl) | inside)
      · exact ⟨_, sentinel⟩
      · exact ⟨_, endLeaf⟩
      · exact rep.live x inside

theorem Whole.lt_next (whole : Whole tr mem dm e root M own) {x : Addr} (member : x ∈ own) :
    x < mem.next := by
  obtain ⟨cell, here⟩ := whole.live x member
  exact Memory.lt_next_of_get here

theorem Whole.of_none (whole : Whole tr mem dm e none M own) :
    M = Table.empty ∧ own = {dm, e} ∧ mem.get e = some ⟨some dm, .baseLeaf⟩ ∧
      ∃ link, mem.get dm = some ⟨some dm, .dummy link e⟩ := by
  cases whole with
  | empty sentinel endLeaf => exact ⟨rfl, rfl, endLeaf, _, sentinel⟩

/-- The path of any key begins at the sentinel. -/
theorem Whole.path {r : Addr} (whole : Whole tr mem dm e (some r) M own) (k : Key n) :
    ∃ rest, Ctx tr mem dm e (some r) k M (dom M) dm r 0 {dm, e} ∧
      Rep tr mem dm r 0 (under M k 0) rest ∧ Disjoint {dm, e} rest ∧ own = {dm, e} ∪ rest := by
  cases whole with
  | tree sentinel endLeaf rep clear =>
      exact ⟨_, .top sentinel endLeaf rfl, by rwa [under_zero], clear, rfl⟩

/-- **The hole moves down one node**, to the child for `k`'s byte. -/
theorem Ctx.descend (ctx : Ctx tr mem dm e root k M (dom M) p c d own) {rest : Set Addr} {h : H}
    {l : Layout} {c' : Addr} (rep : Rep tr mem p c d (under M k d) rest) (clear : Disjoint own rest)
    (cell : mem.get c = some ⟨some p, .inner h l⟩)
    (shared : ∀ v ∈ dom (under M k d), Word.Agree (branch h) k v)
    (slot : l.child (k.letter (branch h)) = some c') :
    ∃ own' rest', Ctx tr mem dm e root k M (dom M) c c' (branch h + 1) own' ∧
      Rep tr mem c c' (branch h + 1) (under M k (branch h + 1)) rest' ∧ Disjoint own' rest' ∧
      own ∪ rest = own' ∪ rest' := by
  obtain ⟨sub, rest', node, fits, broad, rfl, clear', -, kid⟩ := PathNode.of_rep rep cell shared
  rw [dom_under] at broad
  have apart := Set.disjoint_union_right.mp clear
  exact ⟨own ∪ around c sub, rest', .step ctx node slot fits broad apart.1, kid c' slot,
    Set.disjoint_union_left.mpr ⟨apart.2, clear'⟩, (Set.union_assoc _ _ _).symm⟩

/-- **The key of a path is dropped**: the hole is filled by what represents the rest of its part. -/
theorem Ctx.closeDropped (ctx : Ctx tr mem dm e root k M (dom M) p c d own)
    (needed : ∀ r d', d' ≤ r → r < d → Broad H r {v | Word.Agree d' k v ∧ v ∈ dom M} →
      Broad H r {v | Word.Agree d' k v ∧ v ∈ dom (drop M k)})
    {rest : Set Addr} (rep : Rep tr mem p c d (under (drop M k) k d) rest)
    (clear : Disjoint own rest) : Whole tr mem dm e root (drop M k) (own ∪ rest) := by
  refine (ctx.update (fun v apart => drop_of_ne M ?_) needed).close rep clear
  rintro rfl
  exact apart (Word.Agree.refl d v)

/-- A key is not stored if nothing is below it. -/
theorem eq_none_of_vacant {r : ℕ} (vacant : under M k r = empty) : M k = none := by
  have here := congrFun vacant k
  rwa [under_self] at here

/-- The hole is at a node without a child for `k`'s byte. -/
theorem PathNode.of_missing {rest : Set Addr} {h : H} {l : Layout} (rep : Rep tr mem p c d (under M k d) rest) (clear : Disjoint own rest)
    (cell : mem.get c = some ⟨some p, .inner h l⟩)
    (shared : ∀ v ∈ dom (under M k d), Word.Agree (branch h) k v)
    (missing : l.child (k.letter (branch h)) = none) :
    ∃ sub, PathNode tr mem k M p c d h l sub ∧ l.Fits l.count ∧
      Broad H (branch h) (dom (under M k d)) ∧ Disjoint own (around c sub) ∧ rest = around c sub ∧
      under M k (branch h + 1) = empty := by
  obtain ⟨sub, rest', node, fits, broad, rfl, clear', absent, -⟩ := PathNode.of_rep rep cell shared
  obtain ⟨vacant, rfl⟩ := absent missing
  rw [Set.union_empty] at clear ⊢
  exact ⟨sub, node, fits, broad, clear, rfl, vacant⟩

/-- **The path to the leaf of a stored key.** -/
theorem Ctx.locate {it : Addr} {v : V} (entry : M k = some (it, v)) :
    ∀ (t : ℕ) {p c : Addr} {d : ℕ} {own rest : Set Addr}, n < t + d →
      Ctx tr mem dm e root k M (dom M) p c d own → Rep tr mem p c d (under M k d) rest →
      Disjoint own rest →
      ∃ q d' own', Ctx tr mem dm e root k M (dom M) q it d' own' ∧
        mem.get it = some ⟨some q, .leaf v⟩ ∧ under M k d' = single k (it, v) ∧
        own ∪ rest = own' ∪ {it} ∧ it ∉ own'
  | t, p, c, d, own, rest, enough, ctx, rep, clear => by
      have here : under M k d k = some (it, v) := (under_self M k d).trans entry
      rcases rep.inspect with ⟨v', cell, table, rfl⟩ | ⟨h, l, cell, wf, bound, le, shared, describes⟩
      · rw [table, single_apply] at here
        split_ifs at here with same
        simp only [Option.some.injEq, Prod.mk.injEq] at here
        obtain ⟨rfl, rfl⟩ := here
        rw [← same] at table
        exact ⟨p, d, own, ctx, cell, table, rfl, Set.disjoint_singleton_right.mp clear⟩
      · have sharedK := shared k (mem_dom_of_eq_some here)
        rcases slot : l.child (k.letter (branch h)) with _ | c'
        · obtain ⟨-, -, -, -, -, -, vacant⟩ := PathNode.of_missing rep clear cell sharedK slot
          rw [eq_none_of_vacant vacant] at entry
          cases entry
        · obtain ⟨own', rest', ctx', rep', clear', owned⟩ := ctx.descend rep clear cell sharedK slot
          rw [owned]
          obtain ⟨t, rfl⟩ : ∃ t', t = t' + 1 := ⟨t - 1, by have := rep.depth_le; omega⟩
          exact Ctx.locate entry t (by omega) ctx' rep' clear'

/-- **The slot of the hole is redirected.** -/
theorem updateChildPtr_spec {s : St H K V n} {key : Key n}
    (ctx : Ctx tr s.mem s.tree.dummyNode e s.tree.root k M S p c d own)
    (agree : Word.Agree d k key) (c' : Addr) :
    ∃ s', updateChildPtr p c' key s = .ok ⟨⟩ s' ∧
      Ctx tr s'.mem s'.tree.dummyNode e s'.tree.root k M S p c' d own ∧
      s.Frame s' {p, s.tree.dummyNode} ∧ s'.mem.next = s.mem.next := by
  unfold updateChildPtr
  generalize dummyNode : s.tree.dummyNode = dm at ctx
  generalize root : s.tree.root = r at ctx
  cases ctx with
  | top sentinel endLeaf link =>
      subst dummyNode root
      rw [Exec.bind_of_ok (getType_dummy sentinel), if_pos rfl, replaceRoot_ok c' sentinel]
      refine ⟨_, rfl, .top ?_ ?_ rfl, ⟨Memory.keeps_set _ _ (Or.inl rfl), rfl, rfl, rfl⟩, rfl⟩
      · exact Memory.set_get_self sentinel _
      · have other : e ≠ s.tree.dummyNode := by
          rintro rfl
          rw [sentinel] at endLeaf
          cases endLeaf
        exact (Memory.set_get_of_ne _ _ other).trans endLeaf
  | @step p₀ _ _ d₀ own h l sub outer node slot fits broad clear =>
      subst dummyNode root
      have byte : key.letter (branch h) = k.letter (branch h) := (Word.agree_succ.mp agree).2.symm
      obtain ⟨l', run, wf', type, count, children⟩ :=
        Layout.updateChildPtr_spec node.wf c' slot
      rw [Exec.bind_of_ok (getType_inner node.cell), if_neg (layout_getType_ne l).2,
        Exec.bind_of_ok (headerOf_ok node.cell), Exec.bind_of_ok (chunkAt_ok key node.bound s), byte,
        replaceChild_inner node.cell run]
      have off : p ∉ own := fun inside =>
        Set.disjoint_left.mp clear inside (Set.mem_insert p _)
      refine ⟨_, rfl, ?_, ⟨Memory.keeps_set _ _ (Or.inl rfl), rfl, rfl, rfl⟩, rfl⟩
      have cell' := Memory.set_get_self node.cell ⟨some p₀, .inner h l'⟩
      refine .step (outer.frame fun x inside => ?_) (node.relink cell' wf' (fun b other => ?_)
        fun b x inside => ?_) ?_ ?_ broad clear
      · exact Memory.set_get_of_ne _ _ fun same => off (same ▸ inside)
      · rw [children b, if_neg other]
      · exact Memory.set_get_of_ne _ _ fun same => node.apart b (same ▸ inside)
      · rw [children, if_pos rfl]
      · rw [count]
        exact fits.of_getType type

omit [HeaderSpec H] in
/-- At an inner node, the two `update_child_ptr` are the same. -/
theorem updateChildPtr_inner {s : St H K V n} {key : Key n} {q : Option Addr} {h : H} {l : Layout}
    (cell : s.mem.get p = some ⟨q, .inner h l⟩) (bound : branch h < n) (c' : Addr) :
    updateChildPtr p c' key s = replaceChild p (key.letter (branch h)) c' s := by
  unfold updateChildPtr
  rw [Exec.bind_of_ok (getType_inner cell), if_neg (layout_getType_ne l).2,
    Exec.bind_of_ok (headerOf_ok cell), Exec.bind_of_ok (chunkAt_ok key bound s)]

end Ctx

end CppArt
