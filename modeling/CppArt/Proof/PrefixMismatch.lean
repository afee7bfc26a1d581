/-
**The position of a prefix mismatch.**

`prefix_mismatch_pos` compares a key with the stored bytes of a prefix and, beyond them, with the
least key below the node. All keys below the node share the prefix, so what it returns does not depend
on the leaf: it is the length of the common part, capped at `_prefix_length`.
`pes_prefix_mismatch_pos` stops after the stored bytes, so `find` may go on below a node that the key
has already left. It then ends at a leaf with another key or at a missing child.

* `prefixMismatch_of_holds`: both functions at every inner node;
* `findExact_eq`: `find` with the exact position returns what `find` returns;
* `prefix_mismatch`: every history with keys of at most 65536 bytes;
* `prefix_mismatch_dangles`: a history with longer keys.
-/

import CppArt.Proof.Shape
import CppArt.Proof.DoubledLeaf

namespace CppArt

open Table

namespace ArPrefixTree

variable {K V : Type} {n : ℕ}

/-- **The length of the longest common prefix** of the bytes of two keys from a depth on. -/
def commonLength (depth : ℕ) (k w : Key n) : ℕ :=
  Nat.findGreatest (fun length => ∀ i < length, k.letter (depth + i) = w.letter (depth + i)) (n - depth)

theorem le_commonLength {depth length : ℕ} {k w : Key n} (bound : depth + length ≤ n)
    (agree : ∀ i < length, k.letter (depth + i) = w.letter (depth + i)) :
    length ≤ commonLength depth k w :=
  Nat.le_findGreatest (by omega) agree

theorem commonLength_le {depth length : ℕ} {k w : Key n}
    (differ : k.letter (depth + length) ≠ w.letter (depth + length)) : commonLength depth k w ≤ length := by
  by_contra longer
  have agree : ∀ i < commonLength depth k w, k.letter (depth + i) = w.letter (depth + i) :=
    Nat.findGreatest_spec (P := fun length => ∀ i < length, k.letter (depth + i) = w.letter (depth + i))
      (Nat.zero_le _) fun i lt => absurd lt (Nat.not_lt_zero i)
  exact differ (agree length (not_le.mp longer))

/-! ### `find` with the exact position -/

/-- The loop of `find`, with `prefix_mismatch_pos` in the place of `pes_prefix_mismatch_pos`. -/
def findExactLoop (tr : Traits K V n) (key : Key n) : ℕ → ℕ → Option Addr → Run PrefixHeader K V n Addr
  | 0, _, _ => throw .unreachable
  | steps + 1, depth, current =>
      if depth < n + 1 then
        match current with
        | none => endIt
        | some current => do
            if ← isLeaf current then do
              let value ← leafValue current
              let tree ← this
              if key = tree.keyTransform (tr.keyOfValue value) then pure current else endIt
            else do
              match ← pass tr current key depth with
              | none => endIt
              | some depth => do
                  let keyByte ← chunkAt key depth
                  let child ← findChild current keyByte
                  findExactLoop tr key steps (depth + 1) child
      else throw .unreachable

/-- `find`, with `prefix_mismatch_pos`. -/
def findExact (tr : Traits K V n) (k : K) : Run PrefixHeader K V n Addr := do
  let tree ← this
  match tree.root with
  | none => endIt
  | some root => findExactLoop tr (tree.keyTransform k) (n + 1) 0 (some root)

variable {tr : Traits K V n} {s : ArPrefixTree.State K V n} {k : Key n}

theorem findExactLoop_none {steps depth : ℕ} (enough : 0 < steps) (lt : depth < n + 1) :
    findExactLoop tr k steps depth none s = endIt s := by
  obtain ⟨steps, rfl⟩ : ∃ t, steps = t + 1 := ⟨steps - 1, by omega⟩
  rw [findExactLoop, if_pos lt]

/-- **The loop with the exact position**, from a node whose keys agree with the key so far. -/
theorem findExactLoop_spec {p a : Addr} {d : ℕ} {m : Contents n V} {own : Set Addr}
    (stateless : s.tree.keyTransform = tr.defaultTransform) (rep : Rep tr s.mem p a d m own) :
    (∀ v ∈ dom m, Word.Agree d k v) → ∀ steps, n < steps + d →
      findExactLoop tr k steps d (some a) s = (m k).elim (endIt s) fun entry => .ok entry.1 s := by
  induction rep with
  | @leaf p a d v cell le =>
      intro agree steps enough
      obtain ⟨steps, rfl⟩ : ∃ t, steps = t + 1 := ⟨steps - 1, by omega⟩
      rw [findExactLoop, if_pos (Nat.lt_succ_of_le le)]
      rw [Exec.bind_of_ok (isLeaf_leaf cell), if_pos rfl, Exec.bind_of_ok (leafValue_ok cell),
        Exec.bind_of_ok (this_apply s), stateless, single_apply]
      by_cases same : k = tr.keyOf v
      · have accept : k = tr.defaultTransform (tr.keyOfValue v) := same
        rw [if_pos same, if_pos accept]
        rfl
      · have reject : k ≠ tr.defaultTransform (tr.keyOfValue v) := same
        rw [if_neg same, if_neg reject]
        rfl
  | @inner p a d m h l sub cell wf fits bound shared describes broad bare kid apart disjoint ih =>
      intro agree steps enough
      have rep : Rep tr s.mem p a d m (insert a (⋃ b, sub b)) :=
        .inner cell wf fits bound shared describes broad bare kid apart disjoint
      obtain ⟨v, member⟩ := (HeaderSpec.broad_nontrivial broad).nonempty
      have le : d ≤ branch h := HeaderSpec.depth_le (describes v member)
      obtain ⟨steps, rfl⟩ : ∃ t, steps = t + 1 := ⟨steps - 1, by omega⟩
      rw [findExactLoop, if_pos (by omega)]
      rw [Exec.bind_of_ok (isLeaf_inner cell), if_neg Bool.false_ne_true]
      rcases LawfulVariant.pass_spec rep cell agree with ⟨run, shares⟩ | ⟨run, departs⟩
      · have passed : pass tr a k d s = .ok (some (branch h)) s := run
        rw [Exec.bind_of_ok passed]
        simp only []
        rw [Exec.bind_of_ok (chunkAt_ok k bound s), Exec.bind_of_ok (findChild_ok cell wf _)]
        have here : fiber m (branch h) (k.letter (branch h)) k = m k := fiber_of_letter rfl
        rw [← here]
        rcases slot : l.child (k.letter (branch h)) with _ | c
        · rw [(bare _ slot).1, findExactLoop_none (by omega) (by omega)]
          rfl
        · refine ih _ c slot (fun u inside => ?_) steps (by omega)
          obtain ⟨letter, below⟩ := mem_dom_fiber.mp inside
          exact Word.agree_succ.mpr ⟨shares u below, letter.symm⟩
      · have passed : pass tr a k d s = .ok none s := run
        rw [Exec.bind_of_ok passed]
        have absent : m k = none := by
          by_contra present
          exact departs k present (Word.Agree.refl _ k)
        rw [absent]
        rfl

variable {e : Addr} {own : Set Addr} {M : Contents n V}

/-- **The shortcut is harmless.** -/
theorem findExact_eq (holds : Holds tr s e M own) (k : K) : findExact tr k s = find tr k s := by
  rw [find_spec holds k]
  unfold findExact
  rw [Exec.bind_of_ok (this_apply s)]
  rcases root : s.tree.root with _ | r
  · rw [holds.eq_empty root]
    exact endIt_spec holds
  · obtain ⟨rest, ctx, rep, clear, owned⟩ := holds.path root (tr.defaultTransform k)
    simp only [holds.stateless]
    rw [findExactLoop_spec holds.stateless rep (fun v _ => Word.agree_zero _ v) (n + 1) (by omega),
      under_zero, endIt_spec holds]
    cases M (tr.defaultTransform k) <;> rfl

/-! ### The two positions -/

/-- **`pes_prefix_mismatch_pos`** returns the exact position as long as it is among the stored bytes. -/
theorem pesPrefixMismatchPos_of_exact {a : Addr} {p : Option Addr} {h : PrefixHeader} {l : Layout}
    {w : Key n} {pos : ℕ} (cell : s.mem.get a = some ⟨p, .inner h l⟩) (bound : branch h < n)
    (spells : h.Spells h.depth w) (least : minKey tr a s = .ok w s)
    (run : prefixMismatchPos tr a k s = .ok pos s) :
    pesPrefixMismatchPos a k s = .ok (if pos < maxPrefixLength then pos else h.prefixLength) s := by
  have le : h.depth + h.prefixLength < n := bound
  have short : min h.prefixLength maxPrefixLength ≤ h.prefixLength := min_le_left _ _
  unfold prefixMismatchPos at run
  unfold pesPrefixMismatchPos
  rw [Exec.bind_of_ok (headerOf_ok cell)] at run ⊢
  rcases mismatchFrom_spec (s := s) (k := k) w (min h.prefixLength maxPrefixLength) 0 (by omega)
    (fun i _ lt => storedAt_ok spells (by omega)) with ⟨matched, -⟩ | ⟨j, -, lt, matched, -, -⟩
  · rw [Exec.bind_of_ok matched] at run ⊢
    simp only [] at run
    -- the stored bytes are matched, so the exact position is not among them
    have beyond : ¬ pos < maxPrefixLength ∨ pos = h.prefixLength := by
      by_cases long : maxPrefixLength < h.prefixLength
      · rw [if_pos long, Exec.bind_of_ok least] at run
        rcases mismatchFrom_spec (s := s) (k := k) w (h.prefixLength - maxPrefixLength) maxPrefixLength
            (by omega) (fun i _ lt => chunkAt_ok (i := h.depth + i) w (by omega) s) with
          ⟨further, -⟩ | ⟨j, ge, -, further, -, -⟩
        · rw [Exec.bind_of_ok further] at run
          cases run
          exact .inr rfl
        · rw [Exec.bind_of_ok further] at run
          cases run
          exact .inl (not_lt.mpr ge)
      · rw [if_neg long] at run
        cases run
        exact .inr rfl
    rcases beyond with late | rfl
    · rw [if_neg late]
      rfl
    · rw [ite_self]
      rfl
  · rw [Exec.bind_of_ok matched] at run ⊢
    have early : j < maxPrefixLength := by omega
    cases run
    rw [if_pos early]
    rfl

/-- **Prefix mismatches in a tree**: what the two functions return at every inner node for every key
on its path, and `find` with either of them. -/
structure PrefixMismatch (tr : Traits K V n) (s : ArPrefixTree.State K V n) : Prop where
  exact : ∀ a h l, IsInner s a h l → ∀ k : Key n,
    (∀ w ∈ keysBelow tr s.mem a, Word.Agree h.depth k w) →
    ∃ pos, prefixMismatchPos tr a k s = .ok pos s ∧
      (∀ w ∈ keysBelow tr s.mem a, pos = min (commonLength h.depth k w) h.prefixLength) ∧
      pesPrefixMismatchPos a k s = .ok (if pos < maxPrefixLength then pos else h.prefixLength) s
  find : ∀ k, findExact tr k s = CppArt.find tr k s
  found : ∀ k, ∃ it, CppArt.find tr k s = .ok it s

/-- **Every container** that holds a table. -/
theorem prefixMismatch_of_holds (holds : Holds tr s e M own) : PrefixMismatch tr s := by
  refine ⟨fun a h l inner k agree => ?_, findExact_eq holds, fun k => ⟨_, find_spec holds k⟩⟩
  obtain ⟨reached, q, cell⟩ := inner
  obtain ⟨p, d, m', own', rep, -⟩ := holds.at_reached reached
  obtain ⟨sub, parts, -, rfl⟩ := rep.parts cell
  obtain ⟨w, member, least⟩ := minKey_spec rep
  obtain ⟨rfl, spells⟩ := parts.describes w member
  rw [rep.keysBelow_eq] at agree ⊢
  obtain ⟨-, pos, run, found⟩ := prefixMismatchPos_spec rep cell agree
  have bound : h.depth + h.prefixLength < n := parts.bound
  refine ⟨pos, run, fun v inside => ?_,
    pesPrefixMismatchPos_of_exact cell parts.bound spells least run⟩
  rcases found with ⟨rfl, shared⟩ | ⟨early, departs⟩
  · refine (min_eq_right (le_commonLength bound.le fun i lt => ?_)).symm
    exact shared v inside _ (Nat.add_lt_add_left lt _)
  · obtain ⟨shares, differ⟩ := departs v inside
    have same : commonLength h.depth k v = pos := by
      refine le_antisymm (commonLength_le differ) (le_commonLength (by omega) fun i lt => ?_)
      exact shares _ (Nat.add_lt_add_left lt _)
    rw [same, min_eq_left early.le]

/-- **Prefix mismatch is exact and the shortcut is harmless**, for keys whose prefix lengths fit
`_prefix_length`. -/
theorem prefix_mismatch (fits : n ≤ 65536) (tr : Traits K V n) (s : ArPrefixTree.State K V n)
    (m : Table Byte n V) (history : History tr s m) : PrefixMismatch tr s := by
  obtain ⟨e, M, own, holds, -⟩ := history.holds fits
  exact prefixMismatch_of_holds holds

/-- Two keys with the same first byte. -/
theorem prefix_mismatch_pair :
    ∃ s, insertAll (Traits.identity 2) [⟨#v[1, 2]⟩, ⟨#v[1, 3]⟩]
      (blankState PrefixHeader (Traits.identity 2)) = .ok ⟨⟩ s ∧ PrefixMismatch (Traits.identity 2) s := by
  have fits : 2 ≤ 65536 := by decide
  obtain ⟨s, run, history⟩ := insertAll_history (H := PrefixHeader) fits (Traits.identity 2)
    [⟨#v[1, 2]⟩, ⟨#v[1, 3]⟩]
  exact ⟨s, run, prefix_mismatch fits _ s _ history⟩

/-- **Three keys of 65547 bytes**: after the second one has been erased, `prefix_mismatch_pos` of the
root reads a deleted leaf. -/
theorem prefix_mismatch_dangles :
    ∃ (s : ArPrefixTree.State (Key 65547) (Key 65547) 65547) (m : Table Byte 65547 (Key 65547)),
      History (Traits.identity 65547) s m ∧ ¬ PrefixMismatch (Traits.identity 65547) s := by
  obtain ⟨s, m, g, b, front, l, history, dangling⟩ := exists_dangling
  refine ⟨s, m, history, fun mismatch => ?_⟩
  obtain ⟨dm, cell⟩ := dangling.top
  have inner : IsInner s g ⟨0, 10, front⟩ l := ⟨⟨g, dangling.root, .refl g⟩, _, cell⟩
  obtain ⟨pos, run, -⟩ := mismatch.exact g _ l inner secondKey fun w _ => Word.agree_zero _ w
  have fault := dangling.prefixMismatchPos_dangles (k := secondKey) (Word.Agree.refl 10 _) (by omega)
  cases run.symm.trans fault

end ArPrefixTree

end CppArt
