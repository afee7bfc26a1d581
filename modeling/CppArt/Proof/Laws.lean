/-
**What a container must do at its inner nodes.**

`LawfulVariant` states the functions in which `ar_tree` and `ar_prefix_tree` differ: what it means to
reach an inner node on the way down (`passStored`, `pass`, `enter`), to split a leaf and to repair the
tree after an erasure. The refinement of the finite map is proved from these laws, once for both.

`Opened` is the state between the two halves of an insertion: the tree has its final shape, except
that the new leaf is missing from one node, which has room for it.
-/

import CppArt.Proof.Repair

namespace CppArt

open Table

variable {H K V : Type} {n : ℕ} [Header H] [HeaderSpec H]

/-- **The node `q` is ready for the leaf of `k`**, at byte `r`. -/
inductive Opened (tr : Traits K V n) (s : St H K V n) (e : Addr) (k : Key n) (M : Contents n V) :
    Addr → ℕ → Set Addr → Prop
  | intro {p q : Addr} {d : ℕ} {own : Set Addr} {h : H} {l : Layout} {sub : Byte → Set Addr}
      (outer : Ctx tr s.mem s.tree.dummyNode e s.tree.root k M (insert k (dom M)) p q d own)
      (node : PathNode tr s.mem k M p q d h l sub)
      (missing : l.child (k.letter (branch h)) = none)
      (vacant : under M k (branch h + 1) = empty)
      (room : l.Fits (l.count + 1))
      (broad : Broad H (branch h) {v | Word.Agree d k v ∧ v ∈ insert k (dom M)})
      (clear : Disjoint own (around q sub)) :
      Opened tr s e k M q (branch h) (own ∪ around q sub)

theorem Opened.frame {tr : Traits K V n} {s : St H K V n} {e q : Addr} {k : Key n}
    {M : Contents n V} {r : ℕ} {own : Set Addr} (opened : Opened tr s e k M q r own)
    {mem' : Memory (Cell H V)} (same : Memory.Same s.mem mem' own) :
    Opened tr (s.withMem mem') e k M q r own := by
  obtain ⟨outer, node, missing, vacant, room, broad, clear⟩ := opened
  exact .intro (outer.frame (same.mono Set.subset_union_left))
    (node.frame (same.mono Set.subset_union_right)) missing vacant room broad clear

theorem Opened.absent {tr : Traits K V n} {s : St H K V n} {e q : Addr} {k : Key n}
    {M : Contents n V} {r : ℕ} {own : Set Addr} (opened : Opened tr s e k M q r own) :
    M k = none := by
  obtain ⟨outer, node, missing, vacant, room, broad, clear⟩ := opened
  exact eq_none_of_vacant vacant

theorem Opened.live {tr : Traits K V n} {s : St H K V n} {e q : Addr} {k : Key n}
    {M : Contents n V} {r : ℕ} {own : Set Addr} (opened : Opened tr s e k M q r own) {x : Addr}
    (inside : x ∈ own) : x < s.mem.next := by
  obtain ⟨outer, node, missing, vacant, room, broad, clear⟩ := opened
  rcases inside with outside | near
  · exact outer.lt_next outside
  · obtain ⟨cell, here⟩ := node.live x near
    exact Memory.lt_next_of_get here

/-- **A new node above a subtree** that the key leaves at its byte is ready for the leaf. -/
theorem Opened.above {tr : Traits K V n} {s : St H K V n} {p q c e : Addr} {k : Key n} {d : ℕ} {h : H}
    {M : Contents n V} {b : Byte} {own rest : Set Addr}
    (outer : Ctx tr s.mem s.tree.dummyNode e s.tree.root k M (insert k (dom M)) p q d own)
    (cell : s.mem.get q = some ⟨some p, .inner h (.oneWay b c)⟩) (bound : branch h < n)
    (describes : Describes h d k) (other : b ≠ k.letter (branch h))
    (shared : ∀ v ∈ dom (under M k d), Word.Agree (branch h) k v ∧ v.letter (branch h) = b)
    (rep : Rep tr s.mem q c (branch h + 1) (under M k d) rest)
    (broad : Broad H (branch h) {v | Word.Agree d k v ∧ v ∈ insert k (dom M)})
    (clear : Disjoint own (insert q rest)) (off : q ∉ rest) :
    Opened tr s e k M q (branch h) (own ∪ insert q rest) := by
  obtain ⟨wf, count, children⟩ := Layout.oneWay_spec b c
  have le := HeaderSpec.depth_le describes
  have vacant : under M k (branch h + 1) = empty := by
    refine eq_empty_iff.mpr (Set.eq_empty_of_forall_notMem fun v inside => other ?_)
    obtain ⟨agree, member⟩ := mem_dom_under.mp inside
    have split := Word.agree_succ.mp agree
    have here := (shared v (mem_dom_under.mpr ⟨split.1.mono le, member⟩)).2
    exact here.symm.trans split.2.symm
  rw [← around_onlySub q b rest] at clear ⊢
  refine .intro outer (PathNode.aside cell wf bound describes children other shared rep off) ?_ vacant
    ?_ broad clear
  · rw [children, if_neg other.symm]
  · rw [count]
    exact ⟨by decide, (by decide : 2 ≤ 4), fun different => absurd rfl different⟩

/-- **The laws of a variant.** -/
class LawfulVariant (H : Type) [Variant H] [HeaderSpec H] : Prop where
  /-- `find` passes an inner node unless no key below it can be the one. -/
  passStored_spec {K V : Type} {n : ℕ} {s : St H K V n} {a : Addr} {p : Option Addr} {h : H}
    {l : Layout} {d : ℕ} {S : Set (Key n)} (k : Key n) (cell : s.mem.get a = some ⟨p, .inner h l⟩)
    (bound : branch h < n) (describes : ∀ v ∈ S, Describes h d v) (nonempty : S.Nonempty) :
    Variant.passStored a k d s = .ok (some (branch h)) s ∨
      (Variant.passStored a k d s = .ok none s ∧ k ∉ S)
  /-- An inner node is passed when the key agrees with the keys below up to the node's byte. -/
  pass_spec {K V : Type} {n : ℕ} {tr : Traits K V n} {s : St H K V n} {p a : Addr} {h : H}
    {l : Layout} {d : ℕ} {m : Contents n V} {own : Set Addr} {k : Key n}
    (rep : Rep tr s.mem p a d m own) (cell : s.mem.get a = some ⟨some p, .inner h l⟩)
    (agree : ∀ v ∈ dom m, Word.Agree d k v) :
    (Variant.pass tr a k d s = .ok (some (branch h)) s ∧
        ∀ v ∈ dom m, Word.Agree (branch h) k v) ∨
      (Variant.pass tr a k d s = .ok none s ∧ ∀ v ∈ dom m, ¬ Word.Agree (branch h) k v)
  /-- Insertion passes an inner node, or opens a node above it. -/
  enter_spec {K V : Type} {n : ℕ} {tr : Traits K V n} {s : St H K V n} {p a e : Addr} {h : H}
    {l : Layout} {d : ℕ} {M : Contents n V} {own rest : Set Addr} {k : Key n} (admits : Admits H n)
    (ctx : Ctx tr s.mem s.tree.dummyNode e s.tree.root k M (dom M) p a d own)
    (rep : Rep tr s.mem p a d (under M k d) rest) (clear : Disjoint own rest)
    (cell : s.mem.get a = some ⟨some p, .inner h l⟩) (calm : s.mem.failAt = none) :
    (Variant.enter tr a k d s = .ok (a, branch h) s ∧
        ∀ v ∈ dom (under M k d), Word.Agree (branch h) k v) ∨
      ∃ q r s' own', Variant.enter tr a k d s = .ok (q, r) s' ∧ Opened tr s' e k M q r own' ∧
        s.Frame s' (own ∪ rest) ∧ Memory.Renews s.mem s'.mem (own ∪ rest) own'
  /-- A leaf with another key gives way to a node that is ready for the new one. -/
  splitLeaf_spec {K V : Type} {n : ℕ} {tr : Traits K V n} {s : St H K V n} {p c e : Addr} {v : V}
    {d : ℕ} {M : Contents n V} {own : Set Addr} {k : Key n} {limit : ℕ} (admits : Admits H n)
    (ctx : Ctx tr s.mem s.tree.dummyNode e s.tree.root k M (dom M) p c d own)
    (cell : s.mem.get c = some ⟨some p, .leaf v⟩) (off : c ∉ own)
    (alone : under M k d = single (tr.keyOf v) (c, v)) (differ : k ≠ tr.keyOf v)
    (enough : n ≤ limit) (calm : s.mem.failAt = none) :
    ∃ q r s' own', Variant.splitLeaf limit c (tr.keyOf v) k d s = .ok (q, r) s' ∧
      Opened tr s' e k M q r own' ∧ s.Frame s' (own ∪ {c}) ∧ Memory.Renews s.mem s'.mem (own ∪ {c}) own'
  /-- The comparison of two keys is never cut off. -/
  le_posLimit (keySize : ℕ) : keySize ≤ Variant.posLimit H keySize
  /-- The tree is repaired after the leaf of `k` has been erased from the node `q`. -/
  fixAfterErase_spec {K V : Type} {n : ℕ} {tr : Traits K V n} {s : St H K V n} {p q e : Addr} {h : H}
    {l : Layout} {d : ℕ} {M : Contents n V} {own : Set Addr} {sub : Byte → Set Addr} {k : Key n}
    (admits : Admits H n) (vacated : Vacated tr s e k M p q d h l sub own) :
    ∃ s' own', Variant.fixAfterErase q k s = .ok ⟨⟩ s' ∧
      Whole tr s'.mem s'.tree.dummyNode e s'.tree.root (drop M k) own' ∧
      s.Frame s' (own ∪ around q sub) ∧ Memory.Renews s.mem s'.mem (own ∪ around q sub) own'

end CppArt
