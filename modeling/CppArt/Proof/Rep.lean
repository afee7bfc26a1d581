/-
**What a node represents.**

`Rep mem p a d m own`: the node at `a`, with parent `p` and reached after `d` bytes of the key, stands
for the table `m`, and `own` is the set of addresses of the nodes from `a` down. A table maps a key to
its leaf: the address and the value. An inner node owns, for each byte, the nodes below the child of
that byte, and the child stands for the fiber of the table at the byte.

What the two containers require of a header is the class `HeaderSpec`: `Describes` says what the
fields of the header are, `Broad` how many keys a node must have below it.

* `Rep.frame`: a representation survives every change outside of `own`;
* `Rep.reparent`, `Rep.rehead`: it survives another parent and another header at the top;
* `Rep.leaf_cell`: the addresses in the table are leaves with the right keys.
-/

import CppArt.Model.History
import CppArt.Proof.Nodes

namespace CppArt

export Header (branch)

/-- What a container requires of the headers of its inner nodes. -/
class HeaderSpec (H : Type) [Header H] where
  /-- The key sizes that the fields of a header can hold. -/
  Admits : ℕ → Prop
  /-- The header of a node at a depth on the path of a key. -/
  Describes {n : ℕ} : H → ℕ → Key n → Prop
  /-- A set of keys for which there is a node that branches at a position. -/
  Broad {n : ℕ} : ℕ → Set (Key n) → Prop
  depth_le {n : ℕ} {h : H} {d : ℕ} {k : Key n} : Describes h d k → d ≤ branch h
  describes_congr {n : ℕ} {h : H} {d : ℕ} {k k' : Key n} :
    Word.Agree (branch h) k k' → Describes h d k → Describes h d k'
  broad_mono {n : ℕ} {r : ℕ} {S S' : Set (Key n)} : S ⊆ S' → Broad r S → Broad r S'
  broad_nontrivial {n : ℕ} {r : ℕ} {S : Set (Key n)} : Broad r S → S.Nontrivial
  not_broad {n : ℕ} {h : H} {d r : ℕ} {S : Set (Key n)} : (∀ v ∈ S, Describes h d v) →
    (∀ v ∈ S, ∀ w ∈ S, Word.Agree (branch h) v w) → d ≤ r → r < branch h → ¬ Broad r S

export HeaderSpec (Admits Describes Broad)

/-- The leaf and the value of each stored key. -/
abbrev Contents (n : ℕ) (V : Type) := Table Byte n (Addr × V)

variable {H K V : Type} {n : ℕ}

open Table

/-- **What a node represents**, and the addresses it owns. -/
inductive Rep [Header H] [HeaderSpec H] (tr : Traits K V n) (mem : Memory (Cell H V)) :
    Addr → Addr → ℕ → Contents n V → Set Addr → Prop
  | leaf {p a : Addr} {d : ℕ} {v : V} (cell : mem.get a = some ⟨some p, .leaf v⟩) (le : d ≤ n) :
      Rep tr mem p a d (single (tr.keyOf v) (a, v)) {a}
  | inner {p a : Addr} {d : ℕ} {m : Contents n V} {h : H} {l : Layout} {sub : Byte → Set Addr}
      (cell : mem.get a = some ⟨some p, .inner h l⟩)
      (wf : l.WF)
      (fits : l.Fits l.count)
      (bound : branch h < n)
      (shared : ∀ v ∈ dom m, ∀ w ∈ dom m, Word.Agree (branch h) v w)
      (describes : ∀ v ∈ dom m, Describes h d v)
      (broad : Broad H (branch h) (dom m))
      (bare : ∀ b, l.child b = none → fiber m (branch h) b = empty ∧ sub b = ∅)
      (kid : ∀ b c, l.child b = some c → Rep tr mem a c (branch h + 1) (fiber m (branch h) b) (sub b))
      (apart : ∀ b, a ∉ sub b)
      (disjoint : ∀ b b', b ≠ b' → Disjoint (sub b) (sub b')) :
      Rep tr mem p a d m (insert a (⋃ b, sub b))

namespace Rep

variable [Header H] [HeaderSpec H] {tr : Traits K V n} {mem mem' : Memory (Cell H V)} {p a : Addr} {d : ℕ}
  {m : Contents n V} {own : Set Addr}

theorem top_mem (rep : Rep tr mem p a d m own) : a ∈ own := by
  cases rep with
  | leaf cell le => rfl
  | inner => exact Set.mem_insert a _

/-- Every owned address is live. -/
theorem live (rep : Rep tr mem p a d m own) : ∀ x ∈ own, ∃ cell, mem.get x = some cell := by
  induction rep with
  | leaf cell le =>
      rintro x rfl
      exact ⟨_, cell⟩
  | @inner p a d m h l sub cell wf fits bound shared describes broad bare kid apart disjoint ih =>
      intro x member
      rcases member with rfl | below
      · exact ⟨_, cell⟩
      · obtain ⟨b, inside⟩ := Set.mem_iUnion.mp below
        rcases child : l.child b with _ | c
        · rw [(bare b child).2] at inside
          exact absurd inside (Set.notMem_empty x)
        · exact ih b c child x inside

theorem lt_next (rep : Rep tr mem p a d m own) {x : Addr} (member : x ∈ own) : x < mem.next := by
  obtain ⟨cell, here⟩ := rep.live x member
  exact Memory.lt_next_of_get here

theorem nonempty (rep : Rep tr mem p a d m own) : (dom m).Nonempty := by
  cases rep with
  | @leaf p a d v cell le => exact ⟨tr.keyOf v, by simp⟩
  | inner cell wf fits bound shared describes broad bare kid apart disjoint =>
      exact (HeaderSpec.broad_nontrivial broad).nonempty

theorem depth_le (rep : Rep tr mem p a d m own) : d ≤ n := by
  cases rep with
  | leaf cell le => exact le
  | inner cell wf fits bound shared describes broad bare kid apart disjoint =>
      obtain ⟨v, member⟩ := (HeaderSpec.broad_nontrivial broad).nonempty
      exact (HeaderSpec.depth_le (describes v member)).trans bound.le

/-- **Frame.** A representation does not depend on what it does not own. -/
theorem frame (rep : Rep tr mem p a d m own) (same : Memory.Same mem mem' own) :
    Rep tr mem' p a d m own := by
  induction rep with
  | leaf cell le => exact .leaf ((same _ rfl).trans cell) le
  | @inner p a d m h l sub cell wf fits bound shared describes broad bare kid apart disjoint ih =>
      refine .inner ((same a (Set.mem_insert a _)).trans cell) wf fits bound shared describes broad
        bare (fun b c child => ?_) apart disjoint
      exact ih b c child (same.mono fun x inside => Or.inr (Set.mem_iUnion.mpr ⟨b, inside⟩))

/-- The cell at the top carries the parent. -/
theorem top_cell (rep : Rep tr mem p a d m own) : ∃ body, mem.get a = some ⟨some p, body⟩ := by
  cases rep with
  | leaf cell le => exact ⟨_, cell⟩
  | inner cell => exact ⟨_, cell⟩

/-- The node at the top is a leaf or an inner node. -/
theorem inspect (rep : Rep tr mem p a d m own) :
    (∃ v, mem.get a = some ⟨some p, .leaf v⟩ ∧ m = single (tr.keyOf v) (a, v) ∧ own = {a}) ∨
      ∃ h l, mem.get a = some ⟨some p, .inner h l⟩ ∧ l.WF ∧ branch h < n ∧ d ≤ branch h ∧
        (∀ v ∈ dom m, ∀ w ∈ dom m, Word.Agree (branch h) v w) ∧ ∀ v ∈ dom m, Describes h d v := by
  cases rep with
  | @leaf _ _ _ v cell le => exact .inl ⟨v, cell, rfl, rfl⟩
  | @inner _ _ _ _ h l sub cell wf fits bound shared describes broad bare kid apart disjoint =>
      obtain ⟨v, member⟩ := (HeaderSpec.broad_nontrivial broad).nonempty
      exact .inr ⟨h, l, cell, wf, bound, HeaderSpec.depth_le (describes v member), shared, describes⟩

theorem broad (rep : Rep tr mem p a d m own) {h : H} {l : Layout}
    (cell : mem.get a = some ⟨some p, .inner h l⟩) : Broad H (branch h) (dom m) := by
  cases rep with
  | leaf cell' le =>
      rw [cell] at cell'
      cases cell'
  | inner cell' wf fits bound shared describes broad bare kid apart disjoint =>
      rw [cell] at cell'
      cases cell'
      exact broad

/-- **Another parent.** -/
theorem reparent (rep : Rep tr mem p a d m own) {p' : Addr} {body : Body H V}
    (before : mem.get a = some ⟨some p, body⟩) (after : mem'.get a = some ⟨some p', body⟩)
    (same : Memory.Same mem mem' (own \ {a})) : Rep tr mem' p' a d m own := by
  cases rep with
  | leaf cell le =>
      obtain rfl : body = .leaf _ := by
        rw [before, Option.some.injEq, Cell.mk.injEq] at cell
        exact cell.2
      exact .leaf after le
  | @inner _ _ _ _ h l sub cell wf fits bound shared describes broad bare kid apart disjoint =>
      obtain rfl : body = .inner h l := by
        rw [before, Option.some.injEq, Cell.mk.injEq] at cell
        exact cell.2
      refine .inner after wf fits bound shared describes broad bare (fun b c child => ?_) apart disjoint
      refine (kid b c child).frame (same.mono fun x inside => ⟨Or.inr (Set.mem_iUnion.mpr ⟨b, inside⟩), ?_⟩)
      rintro rfl
      exact apart b inside

/-- **Another header**, which branches at the same byte, at another depth. -/
theorem rehead {h h' : H} {l : Layout} {p' : Addr} {d' : ℕ} (rep : Rep tr mem p a d m own)
    (before : mem.get a = some ⟨some p, .inner h l⟩)
    (after : mem'.get a = some ⟨some p', .inner h' l⟩) (sameBranch : branch h' = branch h)
    (describes' : ∀ v ∈ dom m, Describes h' d' v) (same : Memory.Same mem mem' (own \ {a})) :
    Rep tr mem' p' a d' m own := by
  cases rep with
  | leaf cell le =>
      rw [before, Option.some.injEq, Cell.mk.injEq] at cell
      cases cell.2
  | @inner _ _ _ _ h₀ l₀ sub cell wf fits bound shared describes broad bare kid apart disjoint =>
      rw [before, Option.some.injEq, Cell.mk.injEq, Body.inner.injEq] at cell
      obtain ⟨-, rfl, rfl⟩ := cell
      rw [← sameBranch] at bound shared broad bare kid
      refine .inner after wf fits bound shared describes' broad bare (fun b c child => ?_) apart
        disjoint
      refine (kid b c child).frame (same.mono fun x inside => ⟨Or.inr (Set.mem_iUnion.mpr ⟨b, inside⟩), ?_⟩)
      rintro rfl
      exact apart b inside

/-- **The leaves of the table.** -/
theorem leaf_cell (rep : Rep tr mem p a d m own) {w : Key n} {it : Addr} {v : V}
    (entry : m w = some (it, v)) :
    tr.keyOf v = w ∧ it ∈ own ∧ ∃ q, mem.get it = some ⟨some q, .leaf v⟩ := by
  induction rep with
  | @leaf p a d v₀ cell le =>
      rw [single_apply] at entry
      split_ifs at entry with same
      simp only [Option.some.injEq, Prod.mk.injEq] at entry
      obtain ⟨rfl, rfl⟩ := entry
      exact ⟨same.symm, rfl, p, cell⟩
  | @inner p a d m h l sub cell wf fits bound shared describes broad bare kid apart disjoint ih =>
      have here : fiber m (branch h) (w.letter (branch h)) w = some (it, v) := by
        rw [fiber_of_letter rfl, entry]
      rcases child : l.child (w.letter (branch h)) with _ | c
      · rw [(bare _ child).1] at here
        cases here
      · obtain ⟨key, inside, parent⟩ := ih _ c child here
        exact ⟨key, Or.inr (Set.mem_iUnion.mpr ⟨_, inside⟩), parent⟩

end Rep

end CppArt
