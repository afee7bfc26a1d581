/-
**What the copy constructors leave behind.**

`Copies mem mem' x a own`: in the memory `mem'` the node at `a` and the nodes below it, which are the
addresses `own`, have been copied from the node at `x` in the memory `mem`. The child of a byte has been
copied from the child of some byte (`CopiedKid.source`), not necessarily of the same one.

* `Copies.represents`: where each node is fit to be copied (`Copyable`), the copy represents a table with
  the same values, and its tree is the same;
* `Copies.copyable`: a tree whose copy is the same tree is fit to be copied. For where a `_Node_48` is not
  aligned, the copy of the child of a byte has a key that continues with another byte.
-/

import CppArt.Proof.CopyLayout
import CppArt.Proof.Shape

namespace CppArt

open Table

/-- The copy of a child: its address, the byte it was copied from, and the addresses below. -/
structure CopiedKid where
  addr : Addr
  source : Byte
  own : Set Addr

variable {H K V : Type} {n : ℕ}

/-- **A copied tree.** -/
inductive Copies [Variant H] (mem mem' : Memory (Cell H V)) : Addr → Addr → Set Addr → Prop
  | leaf {x a : Addr} {p p' : Option Addr} {v : V} (cell : mem.get x = some ⟨p, .leaf v⟩)
      (cell' : mem'.get a = some ⟨p', .leaf v⟩) : Copies mem mem' x a {a}
  | inner {x a : Addr} {p p' : Option Addr} {h : H} {l l' : Layout} {kids : Byte → CopiedKid}
      (cell : mem.get x = some ⟨p, .inner h l⟩)
      (cell' : mem'.get a = some ⟨p', .inner (copiedHeader l.getType h) l'⟩)
      (wf : l'.WF)
      (skeleton : l'.withoutChildren = l.withoutChildren)
      (children : ∀ b, l'.child b = (l.child b).map fun _ => (kids b).addr)
      (origin : ∀ b, l.child b ≠ none →
        l.child (kids b).source ≠ none ∧ ((kids b).source = b ↔ l.AlignedAt b))
      (parent : ∀ b, l.child b ≠ none → ∃ body, mem'.get (kids b).addr = some ⟨some a, body⟩)
      (bare : ∀ b, l.child b = none → (kids b).own = ∅)
      (kid : ∀ b y, l.child b ≠ none → l.child (kids b).source = some y →
        Copies mem mem' y (kids b).addr (kids b).own)
      (apart : ∀ b, a ∉ (kids b).own)
      (disjoint : ∀ b b', b ≠ b' → Disjoint (kids b).own (kids b').own) :
      Copies mem mem' x a (insert a (⋃ b, (kids b).own))

namespace Copies

variable [Variant H] {mem mem' mem'' : Memory (Cell H V)} {x a : Addr} {own : Set Addr}

theorem top_mem (copies : Copies mem mem' x a own) : a ∈ own := by
  cases copies with
  | leaf cell cell' => rfl
  | inner => exact Set.mem_insert a _

/-- The copy is live. -/
theorem top_cell (copies : Copies mem mem' x a own) : ∃ cell, mem'.get a = some cell := by
  cases copies with
  | leaf cell cell' => exact ⟨_, cell'⟩
  | inner cell cell' => exact ⟨_, cell'⟩

/-- **Frame.** A copied tree does not depend on what it does not own. -/
theorem frame (copies : Copies mem mem' x a own) (same : Memory.Same mem' mem'' own) :
    Copies mem mem'' x a own := by
  induction copies with
  | leaf cell cell' => exact .leaf cell ((same _ rfl).trans cell')
  | @inner x a p p' h l l' kids cell cell' wf skeleton children origin parent bare kid apart disjoint ih =>
      have below : ∀ b, Memory.Same mem' mem'' (kids b).own := fun b =>
        same.mono fun y inside => Or.inr (Set.mem_iUnion.mpr ⟨b, inside⟩)
      refine .inner cell ((same a (Set.mem_insert a _)).trans cell') wf skeleton children origin
        (fun b inside => ?_) bare (fun b y inside there => ih b y inside there (below b)) apart disjoint
      obtain ⟨y, there⟩ := Option.ne_none_iff_exists'.mp (origin b inside).1
      obtain ⟨body, here⟩ := parent b inside
      exact ⟨body, (below b _ (kid b y inside there).top_mem).trans here⟩

/-- **Another parent.** -/
theorem reparent (copies : Copies mem mem' x a own) {p p' : Option Addr} {body : Body H V}
    (before : mem'.get a = some ⟨p, body⟩) (after : mem''.get a = some ⟨p', body⟩)
    (same : Memory.Same mem' mem'' (own \ {a})) : Copies mem mem'' x a own := by
  cases copies with
  | leaf cell cell' =>
      rw [before, Option.some.injEq, Cell.mk.injEq] at cell'
      obtain ⟨-, rfl⟩ := cell'
      exact .leaf cell after
  | @inner _ _ _ _ h l l' kids cell cell' wf skeleton children origin parent bare kid apart disjoint =>
      rw [before, Option.some.injEq, Cell.mk.injEq] at cell'
      obtain ⟨-, rfl⟩ := cell'
      have below : ∀ b, Memory.Same mem' mem'' (kids b).own := by
        intro b y inside
        refine same y ⟨Or.inr (Set.mem_iUnion.mpr ⟨b, inside⟩), ?_⟩
        rintro rfl
        exact apart b inside
      refine .inner cell after wf skeleton children origin (fun b inside => ?_) bare
        (fun b y inside there => (kid b y inside there).frame (below b)) apart disjoint
      obtain ⟨y, there⟩ := Option.ne_none_iff_exists'.mp (origin b inside).1
      obtain ⟨body, here⟩ := parent b inside
      exact ⟨body, (below b _ (kid b y inside there).top_mem).trans here⟩

end Copies

/-! ### Where each node is fit to be copied -/

/-- What of a header the copy has to keep: the position of its node and what it says about the keys. -/
structure Faithful [Header H] [HeaderSpec H] (fields : H → H) : Prop where
  branch {h h' : H} : fields h = fields h' → branch h = branch h'
  describes {n : ℕ} {h h' : H} {d : ℕ} {k : Key n} : fields h = fields h' → Describes h d k →
    Describes h' d k

/-- **Every node below is fit to be copied.** -/
def CopyableBelow [Variant H] (fields : H → H) (mem : Memory (Cell H V)) (x : Addr) : Prop :=
  ∀ z p h l, Below mem x z → mem.get z = some ⟨p, .inner h l⟩ →
    l.Aligned ∧ fields (copiedHeader l.getType h) = fields h

section Trees

variable [Variant H] [HeaderSpec H] {tr : Traits K V n} {fields : H → H} {mem mem' : Memory (Cell H V)}
  {p x a : Addr} {d : ℕ} {m : Contents n V} {own own' : Set Addr}

omit [HeaderSpec H] in
/-- A node with a child is fit to be copied only if the child is. -/
theorem CopyableBelow.child (fit : CopyableBelow fields mem x) {q : Option Addr} {h : H} {l : Layout}
    (cell : mem.get x = some ⟨q, .inner h l⟩) (wf : l.WF) {b : Byte} {c : Addr}
    (slot : l.child b = some c) : CopyableBelow fields mem c :=
  fun z q' h' l' below => fit z q' h' l' (.child cell ((Layout.find_eq_some wf).mpr slot) below)

/-- **A copied tree has a key**, and it is a key of the tree it was copied from. -/
theorem Copies.exists_key (rep : Rep tr mem p x d m own) (copies : Copies mem mem' x a own') :
    ∃ w ∈ keysBelow tr mem' a, w ∈ dom m := by
  induction rep generalizing a own' with
  | @leaf p x d v cell le =>
      cases copies with
      | leaf cell₀ cell' =>
          rw [cell] at cell₀
          cases cell₀
          exact ⟨tr.keyOf v, ⟨a, _, v, .refl a, cell', rfl⟩, by simp⟩
      | inner cell₀ cell' =>
          rw [cell] at cell₀
          cases cell₀
  | @inner p x d m h l sub cell wf fits bound shared describes broad bare kid apart disjoint ih =>
      cases copies with
      | leaf cell₀ cell' =>
          rw [cell] at cell₀
          cases cell₀
      | @inner _ _ _ _ _ _ l' kids cell₀ cell' wf' skeleton children origin parent bare' kid' apart' =>
          rw [cell] at cell₀
          cases cell₀
          obtain ⟨b, c, slot⟩ := Layout.exists_child wf fits.1
          have inside : l.child b ≠ none := slot ▸ Option.some_ne_none c
          obtain ⟨y, there⟩ := Option.ne_none_iff_exists'.mp (origin b inside).1
          obtain ⟨w, ⟨it, q, v, reached, leaf, key⟩, member⟩ := ih _ y there (kid' b y inside there)
          refine ⟨w, ⟨it, q, v, ?_, leaf, key⟩, (mem_dom_fiber.mp member).2⟩
          have slot' : l'.child b = some (kids b).addr := by rw [children, slot]; rfl
          exact .child cell' ((Layout.find_eq_some wf').mpr slot') reached

/-- The values of the entries. -/
theorem values_fiber (m : Contents n V) (r : ℕ) (b : Byte) :
    values (fiber m r b) = fiber (values m) r b := by
  funext w
  by_cases letter : w.letter r = b
  · rw [fiber_of_letter letter, values, values, fiber_of_letter letter]
  · rw [values, fiber, fiber, if_neg letter, if_neg letter]
    rfl

/-- A table with given fibers. -/
def join (m : Byte → Contents n V) (r : ℕ) : Contents n V := fun w => m (w.letter r) w

theorem fiber_join {m : Byte → Contents n V} {r : ℕ} (b : Byte) (only : ∀ w ∈ dom (m b), w.letter r = b) :
    fiber (join m r) r b = m b := by
  funext w
  by_cases letter : w.letter r = b
  · rw [fiber_of_letter letter, join, letter]
  · rw [fiber, if_neg letter]
    by_contra present
    exact letter (only w (Ne.symm present))

/-- **The copy of a tree whose nodes are fit to be copied** represents a table with the same values. -/
theorem Copies.represents (faithful : Faithful fields) (rep : Rep tr mem p x d m own)
    (copies : Copies mem mem' x a own') (fit : CopyableBelow fields mem x) {q : Addr} {body : Body H V}
    (top : mem'.get a = some ⟨some q, body⟩) :
    ∃ m', Rep tr mem' q a d m' own' ∧ values m' = values m := by
  induction rep generalizing a own' q body with
  | @leaf p x d v cell le =>
      cases copies with
      | leaf cell₀ cell' =>
          rw [cell] at cell₀
          cases cell₀
          rw [cell', Option.some.injEq, Cell.mk.injEq] at top
          obtain ⟨rfl, -⟩ := top
          refine ⟨_, .leaf cell' le, ?_⟩
          funext w
          by_cases same : w = tr.keyOf v <;> simp [values, single_apply, same]
      | inner cell₀ cell' =>
          rw [cell] at cell₀
          cases cell₀
  | @inner p x d m h l sub cell wf fits bound shared describes broad bare kid apart disjoint ih =>
      cases copies with
      | leaf cell₀ cell' =>
          rw [cell] at cell₀
          cases cell₀
      | @inner _ _ _ _ _ _ l' kids cell₀ cell' wf' skeleton children origin parent bare' kid' apart'
          disjoint' =>
          rw [cell] at cell₀
          cases cell₀
          obtain ⟨aligned, header⟩ := fit x _ h l (.refl x) cell
          have position := faithful.branch header
          rw [cell', Option.some.injEq, Cell.mk.injEq] at top
          obtain ⟨rfl, -⟩ := top
          have same : ∀ b, l.child b ≠ none → (kids b).source = b := fun b inside =>
            (origin b inside).2.mpr ((Layout.aligned_iff wf).mp aligned b inside)
          have parts : ∀ b, ∃ part : Contents n V, values part = values (fiber m (branch h) b) ∧
              (l.child b ≠ none → Rep tr mem' a (kids b).addr (branch h + 1) part (kids b).own) := by
            intro b
            rcases slot : l.child b with _ | c
            · exact ⟨fiber m (branch h) b, rfl, fun absent => absurd rfl absent⟩
            · have inside : l.child b ≠ none := slot ▸ Option.some_ne_none c
              obtain ⟨body, above⟩ := parent b inside
              obtain ⟨part, rep', values'⟩ := ih b c slot (kid' b c inside (by rw [same b inside, slot]))
                (fit.child cell wf slot) above
              exact ⟨part, values', fun _ => rep'⟩
          choose part values' rep' using parts
          have keys : ∀ b, dom (part b) = dom (fiber m (branch h) b) := fun b => by
            rw [← dom_values, values', dom_values]
          have fibers : ∀ b, fiber (join part (branch h)) (branch h) b = part b := fun b =>
            fiber_join b fun w inside => (mem_dom_fiber.mp (keys b ▸ inside)).1
          have whole : values (join part (branch h)) = values m := by
            funext w
            have here := congrFun (values' (w.letter (branch h))) w
            rw [values_fiber, fiber_of_letter rfl] at here
            exact here
          have wholeKeys : dom (join part (branch h)) = dom m := by rw [← dom_values, whole, dom_values]
          have absent : ∀ b, l'.child b = none → l.child b = none := fun b none' => by
            rw [children] at none'
            exact Option.map_eq_none_iff.mp none'
          have type := Layout.getType_of_skeleton skeleton
          have count := Layout.count_of_skeleton skeleton
          refine ⟨join part (branch h), .inner cell' wf' ?_ (position.symm ▸ bound) ?_ ?_ ?_ ?_ ?_
            apart' disjoint', whole⟩
          · rw [count]
            exact fits.of_getType type
          · rw [wholeKeys, position]
            exact shared
          · rw [wholeKeys]
            exact fun v member => faithful.describes header.symm (describes v member)
          · rw [wholeKeys, position]
            exact broad
          · intro b none'
            refine ⟨?_, bare' b (absent b none')⟩
            have nothing : dom (part b) = ∅ := by rw [keys, (bare b (absent b none')).1, dom_empty]
            rw [position, fibers]
            exact eq_empty_iff.mpr nothing
          · intro b c' slot'
            rw [position, fibers]
            have inside : l.child b ≠ none := by
              intro none
              rw [children, none] at slot'
              cases slot'
            obtain ⟨c, slot⟩ := Option.ne_none_iff_exists'.mp inside
            rw [children, slot, Option.map_some, Option.some.injEq] at slot'
            rw [← slot']
            exact rep' b inside

/-! ### The same tree -/

/-- **The copy of a tree whose nodes are fit to be copied** is the same tree. -/
theorem Copies.sameTree (rep : Rep tr mem p x d m own) (copies : Copies mem mem' x a own')
    (fit : CopyableBelow fields mem x) (same : Memory.Same mem mem' own) : SameTree fields mem' x a := by
  induction rep generalizing a own' with
  | @leaf p x d v cell le =>
      cases copies with
      | leaf cell₀ cell' =>
          rw [cell] at cell₀
          cases cell₀
          exact .leaf ((same x rfl).trans cell) cell'
      | inner cell₀ cell' =>
          rw [cell] at cell₀
          cases cell₀
  | @inner p x d m h l sub cell wf fits bound shared describes broad bare kid apart disjoint ih =>
      cases copies with
      | leaf cell₀ cell' =>
          rw [cell] at cell₀
          cases cell₀
      | @inner _ _ _ _ _ _ l' kids cell₀ cell' wf' skeleton children origin parent bare' kid' apart' =>
          rw [cell] at cell₀
          cases cell₀
          obtain ⟨aligned, header⟩ := fit x _ h l (.refl x) cell
          have present : ∀ b c', l'.find b = .ok (some c') → l.child b ≠ none ∧ (kids b).addr = c' := by
            intro b c' slot'
            rw [Layout.find_eq_some wf', children] at slot'
            obtain ⟨c, slot, here⟩ := Option.map_eq_some_iff.mp slot'
            exact ⟨slot ▸ Option.some_ne_none c, here⟩
          refine .inner ((same x (Set.mem_insert x _)).trans cell) cell' header
            (Layout.getType_of_skeleton skeleton) (Layout.count_of_skeleton skeleton) ?_ ?_ ?_
          · ext b
            rw [Layout.mem_branchBytes wf', Layout.mem_branchBytes wf, children, Ne, Ne,
              Option.map_eq_none_iff]
          · intro b c' slot'
            obtain ⟨inside, rfl⟩ := present b c' slot'
            exact parent b inside
          · intro b c c' slot slot'
            obtain ⟨inside, rfl⟩ := present b c' slot'
            rw [Layout.find_eq_some wf] at slot
            have source := (origin b inside).2.mpr ((Layout.aligned_iff wf).mp aligned b inside)
            exact ih b c slot (kid' b c inside (by rw [source, slot])) (fit.child cell wf slot)
              (same.mono fun y inside => mem_around_of_sub inside)

omit [HeaderSpec H] [Variant H] in
theorem keysBelow_leaf {q : Option Addr} {v : V} (cell : mem.get x = some ⟨q, .leaf v⟩) :
    keysBelow tr mem x = {tr.keyOf v} := by
  ext w
  constructor
  · rintro ⟨it, q', v', reached, leaf, rfl⟩
    cases reached with
    | refl =>
        rw [cell] at leaf
        cases leaf
        rfl
    | child cell' =>
        rw [cell] at cell'
        cases cell'
  · rintro rfl
    exact ⟨x, q, v, .refl x, cell, rfl⟩

omit [HeaderSpec H] [Variant H] in
theorem mem_keysBelow_inner {q : Option Addr} {h : H} {l : Layout}
    (cell : mem.get x = some ⟨q, .inner h l⟩) {w : Key n} :
    w ∈ keysBelow tr mem x ↔ ∃ b c, l.find b = .ok (some c) ∧ w ∈ keysBelow tr mem c := by
  constructor
  · rintro ⟨it, q', v, reached, leaf, rfl⟩
    cases reached with
    | refl =>
        rw [cell] at leaf
        cases leaf
    | child cell' slot rest =>
        rw [cell] at cell'
        cases cell'
        exact ⟨_, _, slot, it, q', v, rest, leaf, rfl⟩
  · rintro ⟨b, c, slot, it, q', v, reached, leaf, rfl⟩
    exact ⟨it, q', v, .child cell slot reached, leaf, rfl⟩

omit [HeaderSpec H] [Variant H] in
/-- **The same trees** have the same keys. -/
theorem SameTree.keysBelow_eq (tree : SameTree fields mem x a) : keysBelow tr mem a = keysBelow tr mem x := by
  induction tree with
  | leaf cell cell' => rw [keysBelow_leaf cell, keysBelow_leaf cell']
  | @inner x a p p' h h' l l' cell cell' header type count bytes parents kids ih =>
      ext w
      rw [mem_keysBelow_inner cell, mem_keysBelow_inner cell']
      refine exists_congr fun b => ⟨?_, ?_⟩
      · rintro ⟨c', slot', member⟩
        have inside : b ∈ l'.branchBytes := ⟨c', slot'⟩
        rw [bytes] at inside
        obtain ⟨c, slot⟩ := inside
        exact ⟨c, slot, ih b c c' slot slot' ▸ member⟩
      · rintro ⟨c, slot, member⟩
        have inside : b ∈ l.branchBytes := ⟨c, slot⟩
        rw [← bytes] at inside
        obtain ⟨c', slot'⟩ := inside
        exact ⟨c', slot', (ih b c c' slot slot').symm ▸ member⟩

/-- **A tree whose copy is the same tree** is fit to be copied: the copy of a child has the keys of the
child it was copied from, and these continue with the byte of this child. -/
theorem Copies.copyable (rep : Rep tr mem p x d m own) (copies : Copies mem mem' x a own')
    (same : Memory.Same mem mem' own) (tree : SameTree fields mem' x a) : CopyableBelow fields mem x := by
  induction rep generalizing a own' with
  | @leaf p x d v cell le =>
      intro z q h l below inner
      cases below with
      | refl =>
          rw [cell] at inner
          cases inner
      | child cell' =>
          rw [cell] at cell'
          cases cell'
  | @inner p x d m h l sub cell wf fits bound shared describes broad bare kid apart disjoint ih =>
      cases copies with
      | leaf cell₀ cell' =>
          rw [cell] at cell₀
          cases cell₀
      | @inner _ _ _ _ _ _ l' kids cell₀ cell' wf' skeleton children origin parent bare' kid' apart' =>
          rw [cell] at cell₀
          cases cell₀
          have below : ∀ b, Memory.Same mem mem' (sub b) := fun b =>
            same.mono fun y inside => mem_around_of_sub inside
          cases tree with
          | leaf cell₁ cell₁' =>
              rw [same x (Set.mem_insert x _), cell] at cell₁
              cases cell₁
          | inner cell₁ cell₁' header type count bytes parents trees =>
              rw [same x (Set.mem_insert x _), cell] at cell₁
              cases cell₁
              rw [cell'] at cell₁'
              cases cell₁'
              have found : ∀ b c, l.child b = some c → SameTree fields mem' c (kids b).addr := by
                intro b c slot
                refine trees b c _ ((Layout.find_eq_some wf).mpr slot) ((Layout.find_eq_some wf').mpr ?_)
                rw [children, slot]
                rfl
              have source : ∀ b, l.child b ≠ none → (kids b).source = b := by
                intro b inside
                obtain ⟨c, slot⟩ := Option.ne_none_iff_exists'.mp inside
                obtain ⟨y, there⟩ := Option.ne_none_iff_exists'.mp (origin b inside).1
                obtain ⟨w, member, origin⟩ := (kid' b y inside there).exists_key (kid _ y there)
                rw [(found b c slot).keysBelow_eq, ((kid b c slot).frame (below b)).keysBelow_eq] at member
                exact (mem_dom_fiber.mp origin).1.symm.trans (mem_dom_fiber.mp member).1
              intro z q h' l₁ reached inner
              cases reached with
              | refl =>
                  rw [cell] at inner
                  cases inner
                  exact ⟨(Layout.aligned_iff wf).mpr fun b inside =>
                    (origin b inside).2.mp (source b inside), header⟩
              | @child _ c _ _ _ _ b cell₂ slot rest =>
                  rw [cell] at cell₂
                  cases cell₂
                  rw [Layout.find_eq_some wf] at slot
                  have inside : l.child b ≠ none := slot ▸ Option.some_ne_none c
                  exact ih b c slot (kid' b c inside (by rw [source b inside, slot])) (below b)
                    (found b c slot) z q h' l₁ rest inner

end Trees

end CppArt
