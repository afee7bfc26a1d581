/-
**Minimum, successor and the way back up.**

* `extreme_spec`: from a node, `minimum` and `maximum` return the leaf of the first key of their
  direction;
* `neighbour_spec`: from the parent of a hole on the path of a key, `successor` and `predecessor`
  return the leaf of the first key beyond it, among the keys outside of the hole. Where there is none,
  `successor` returns the end leaf.

A node on the path answers from its own children if one lies beyond the key's byte, and otherwise
asks its parent (`PathNode.beyond`); the climb is the induction over the path.
-/

import CppArt.Proof.Path

namespace CppArt

open Table

variable {H K V : Type} {n : ℕ} [Header H] [HeaderSpec H] {tr : Traits K V n}

/-- The first key in the child of the first byte is the first key of the node. -/
theorem isFirst_of_fiber {β : Type} {m : Table Byte n β} {r : ℕ} {dir : Dir} {b : Byte} {w : Key n}
    {bytes : Set Byte}
    (shared : ∀ v ∈ dom m, ∀ w ∈ dom m, Word.Agree r v w)
    (letters : ∀ v ∈ dom m, v.letter r ∈ bytes) (firstByte : dir.IsFirst bytes b)
    (first : dir.IsFirst (dom (fiber m r b)) w) : dir.IsFirst (dom m) w := by
  obtain ⟨letter, member⟩ := mem_dom_fiber.mp first.1
  refine ⟨member, fun v inside other => ?_⟩
  by_cases same : v.letter r = b
  · exact first.2 v (mem_dom_fiber.mpr ⟨same, inside⟩) other
  · refine Word.before_of_letter (shared w member v inside) ?_
    rw [letter]
    exact firstByte.2 _ (letters v inside) same

/-! ### Minimum and maximum -/

theorem extremeFrom_spec {s : St H K V n} {p a : Addr} {d : ℕ} {m : Contents n V} {own : Set Addr}
    (rep : Rep tr s.mem p a d m own) (dir : Dir) : ∀ calls, n < calls + d →
    ∃ w it v, extremeFrom dir calls a s = .ok it s ∧ m w = some (it, v) ∧ dir.IsFirst (dom m) w := by
  induction rep with
  | @leaf p a d v cell le =>
      intro calls enough
      obtain ⟨calls, rfl⟩ : ∃ c, calls = c + 1 := ⟨calls - 1, by omega⟩
      refine ⟨tr.keyOf v, a, v, ?_, single_self _ _, ?_⟩
      · rw [extremeFrom, Exec.bind_of_ok (load_ok cell)]
        rfl
      · rw [dom_single]
        exact ⟨rfl, fun w inside other => absurd inside other⟩
  | @inner p a d m h l sub cell wf fits bound shared describes broad bare kid apart disjoint ih =>
      intro calls enough
      obtain ⟨v, member⟩ := (HeaderSpec.broad_nontrivial broad).nonempty
      have le : d ≤ branch h := HeaderSpec.depth_le (describes v member)
      obtain ⟨calls, rfl⟩ : ∃ c, calls = c + 1 := ⟨calls - 1, by omega⟩
      obtain ⟨b, c, run, child, firstByte⟩ := Layout.extremeChild_spec wf fits.1 dir
      obtain ⟨w, it, v, rest, entry, first⟩ := ih b c child calls (by omega)
      have letters : ∀ v ∈ dom m, v.letter (branch h) ∈ l.bytes := by
        intro v member none
        have inside : v ∈ dom (fiber m (branch h) (v.letter (branch h))) :=
          mem_dom_fiber.mpr ⟨rfl, member⟩
        rw [(bare _ none).1, dom_empty] at inside
        exact inside
      refine ⟨w, it, v, ?_, ?_, isFirst_of_fiber shared letters firstByte first⟩
      · rw [extremeFrom, Exec.bind_of_ok (load_ok cell)]
        simp only [run]
        exact rest
      · rwa [fiber_of_letter (mem_dom_fiber.mp first.1).1] at entry

/-- **`minimum` and `maximum`** return the leaf of the first key of their direction. -/
theorem extreme_spec {s : St H K V n} {p a : Addr} {d : ℕ} {m : Contents n V} {own : Set Addr}
    (rep : Rep tr s.mem p a d m own) (dir : Dir) :
    ∃ w it v, extreme dir a s = .ok it s ∧ m w = some (it, v) ∧ dir.IsFirst (dom m) w :=
  extremeFrom_spec rep dir (levels n) (by unfold levels; omega)

/-! ### Successor and predecessor -/

section Climb

variable {s : St H K V n} {k : Key n} {M : Contents n V} {p a c dm e : Addr} {root : Option Addr}
  {d : ℕ} {h : H} {l : Layout} {sub : Byte → Set Addr} {S : Set (Key n)} {own : Set Addr}

/-- The keys beyond `k` in a direction that leave the path of `k` within `d` bytes. -/
def beyond (dir : Dir) (M : Contents n V) (k : Key n) (d : ℕ) : Set (Key n) :=
  {v | v ∈ dom M ∧ ¬ Word.Agree d k v ∧ dir.before k v}

omit [HeaderSpec H] in
theorem neighbourFrom_inner {p : Addr} (dir : Dir) (k : Key n) (calls : ℕ)
    (cell : s.mem.get a = some ⟨some p, .inner h l⟩) (bound : branch h < n) {next : Option Addr}
    (run : l.childBeyond dir (k.letter (branch h)) = .ok next) :
    neighbourFrom dir k (calls + 1) a s
      = next.elim (neighbourFrom dir k calls p s) fun child => extreme dir child s := by
  have lifted : (Exec.lift (l.childBeyond dir (k.letter (branch h))) : Run H K V n (Option Addr)) s
      = .ok next s := by rw [run, Exec.lift_ok]
  rw [neighbourFrom, Exec.bind_of_ok (load_ok cell)]
  simp only []
  rw [Exec.bind_of_ok (chunkAt_ok k bound s), Exec.bind_of_ok lifted]
  cases next <;> rfl

/-- **A node on the path** has a child beyond the key's byte, or defers to its parent. -/
theorem PathNode.beyond (node : PathNode tr s.mem k M p a d h l sub) (dir : Dir) (calls : ℕ) :
    (neighbourFrom dir k (calls + 1) a s = neighbourFrom dir k calls p s ∧
        beyond dir M k (branch h + 1) = beyond dir M k d) ∨
      ∃ w it v, neighbourFrom dir k (calls + 1) a s = .ok it s ∧ M w = some (it, v) ∧
        dir.IsFirst (beyond dir M k (branch h + 1)) w := by
  -- a key that leaves the path at this node has its letter beyond `k`'s
  have letter : ∀ v ∈ dom (under M k d), ¬ Word.Agree (branch h + 1) k v → dir.before k v →
      dir.before (k.letter (branch h)) (v.letter (branch h)) := by
    intro v member apart side
    have agree := node.shared v member
    exact Word.letter_before agree (fun same => apart (Word.agree_succ.mpr ⟨agree, same⟩)) side
  have inBytes : ∀ v ∈ dom (under M k d), v.letter (branch h) ≠ k.letter (branch h) →
      v.letter (branch h) ∈ l.bytes := by
    intro v member other none
    have inside : v ∈ dom (fiber (under M k d) (branch h) (v.letter (branch h))) :=
      mem_dom_fiber.mpr ⟨rfl, member⟩
    rw [(node.bare _ other none).1, dom_empty] at inside
    exact inside
  rcases Layout.childBeyond_spec node.wf dir (k.letter (branch h)) with
    ⟨run, none⟩ | ⟨b, c, run, child, firstByte⟩
  · refine .inl ⟨neighbourFrom_inner dir k calls node.cell node.bound run, ?_⟩
    ext v
    refine ⟨fun ⟨member, apart, side⟩ => ⟨member, fun agree => ?_, side⟩,
      fun ⟨member, apart, side⟩ => ⟨member, fun agree => ?_, side⟩⟩
    · have inside : v ∈ dom (under M k d) := mem_dom_under.mpr ⟨agree, member⟩
      have less := letter v inside apart side
      exact none _ (inBytes v inside (Dir.ne_of_before less).symm) less
    · exact apart (agree.mono (node.depth_le.trans (Nat.le_succ _)))
  · have other : b ≠ k.letter (branch h) := (Dir.ne_of_before firstByte.1.2).symm
    obtain ⟨w, it, v, rest, entry, first⟩ := extreme_spec (node.kid b other c child) dir
    obtain ⟨letterW, memberW⟩ := mem_dom_fiber.mp first.1
    obtain ⟨agreeW, insideW⟩ := mem_dom_under.mp memberW
    have sharedW := node.shared w memberW
    have sideW : dir.before k w := by
      refine Word.before_of_letter sharedW ?_
      rw [letterW]
      exact firstByte.1.2
    refine .inr ⟨w, it, v, ?_, ?_, ⟨insideW, fun agree => ?_, sideW⟩, fun u inside differ => ?_⟩
    · rw [neighbourFrom_inner dir k calls node.cell node.bound run]
      exact rest
    · rw [fiber_of_letter letterW, under_of_agree agreeW] at entry
      exact entry
    · exact other (letterW.symm.trans (Word.agree_succ.mp agree).2.symm)
    · obtain ⟨member, apart, side⟩ := inside
      by_cases agree : Word.Agree d k u
      · have insideU : u ∈ dom (under M k d) := mem_dom_under.mpr ⟨agree, member⟩
        have less := letter u insideU apart side
        by_cases same : u.letter (branch h) = b
        · exact first.2 u (mem_dom_fiber.mpr ⟨same, insideU⟩) differ
        · refine Word.before_of_letter (sharedW.symm.trans (node.shared u insideU)) ?_
          rw [letterW]
          exact firstByte.2 _ ⟨inBytes u insideU (Dir.ne_of_before less).symm, less⟩ same
      · exact Word.before_of_agree agreeW agree side

theorem neighbourFrom_spec (ctx : Ctx tr s.mem dm e root k M S p c d own) (dir : Dir) :
    ∀ calls, d < calls →
    (∃ w it v, neighbourFrom dir k calls p s = .ok it s ∧ M w = some (it, v) ∧
        dir.IsFirst (beyond dir M k d) w) ∨
      (beyond dir M k d = ∅ ∧ (dir = .up → neighbourFrom dir k calls p s = .ok e s)) := by
  induction ctx with
  | top sentinel endLeaf link =>
      intro calls enough
      obtain ⟨calls, rfl⟩ : ∃ c, calls = c + 1 := ⟨calls - 1, by omega⟩
      refine .inr ⟨?_, ?_⟩
      · ext v
        simp [beyond]
      · rintro rfl
        rw [neighbourFrom, Exec.bind_of_ok (load_ok sentinel)]
        rfl
  | @step p a c d own h l sub outer node slot fits broad clear ih =>
      intro calls enough
      have le := node.depth_le
      obtain ⟨calls, rfl⟩ : ∃ c, calls = c + 1 := ⟨calls - 1, by omega⟩
      rcases node.beyond dir calls with ⟨same, keys⟩ | found
      · rw [same, keys]
        exact ih calls (by omega)
      · exact .inl found

/-- **`successor` and `predecessor` from the parent of a hole.** -/
theorem neighbour_spec (ctx : Ctx tr s.mem dm e root k M S p c d own) (dir : Dir) :
    (∃ w it v, neighbour dir k p s = .ok it s ∧ M w = some (it, v) ∧
        dir.IsFirst (beyond dir M k d) w) ∨
      (beyond dir M k d = ∅ ∧ (dir = .up → neighbour dir k p s = .ok e s)) :=
  neighbourFrom_spec ctx dir (levels n) (by have := ctx.depth_le; unfold levels; omega)

/-- **The same from a node without a child for the key's byte.** -/
theorem neighbour_of_node (outer : Ctx tr s.mem dm e root k M S p a d own)
    (node : PathNode tr s.mem k M p a d h l sub) (dir : Dir) :
    (∃ w it v, neighbour dir k a s = .ok it s ∧ M w = some (it, v) ∧
        dir.IsFirst (beyond dir M k (branch h + 1)) w) ∨
      (beyond dir M k (branch h + 1) = ∅ ∧ (dir = .up → neighbour dir k a s = .ok e s)) := by
  rcases node.beyond dir (n + 1) with ⟨same, keys⟩ | found
  · have climb : neighbour dir k a s = neighbourFrom dir k (n + 1) p s := same
    rw [climb, keys]
    exact neighbourFrom_spec outer dir (n + 1) (Nat.lt_succ_of_le outer.depth_le)
  · exact .inl found

end Climb

end CppArt
