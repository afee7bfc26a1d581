/-
**The shape of an `ar_tree` is determined by its keys.**

Every byte of a path is a level of `ar_tree`, so a path of bytes names at most one node. `Canonical`
says which nodes there are: an inner node for each path that two stored keys begin with, with one child
for each next byte, and the leaf of each key at the shortest path that no other key shares.

* `along`: the entries whose keys continue with the bytes of a path;
* `ArTree.Rep.follow_spec`, `ArTree.Rep.follow_of_nontrivial`: the node at the end of a path;
* `ArTree.canonical`: the shape after every history, and its independence of the history.
-/

import CppArt.Proof.Refinement
import CppArt.Proof.Shape

namespace CppArt

open Table

variable {K V : Type} {n : ℕ} {tr : Traits K V n} {mem : Memory (Cell DepthHeader V)} {p a x : Addr}
  {d : ℕ} {m : Contents n V} {own : Set Addr}

/-- **The shape of an `ar_tree`** with the entries of a map. -/
structure ArTree.Canonical (tr : Traits K V n) (s : ArTree.State K V n) (m : Table Byte n V) : Prop where
  inner_iff : ∀ path, (∃ a p h l, nodeAt s path = some a ∧ s.mem.get a = some ⟨p, .inner h l⟩) ↔
    {w | w ∈ dom m ∧ Begins path w}.Nontrivial
  inner : ∀ path a p h l, nodeAt s path = some a → s.mem.get a = some ⟨p, .inner h l⟩ →
    h.depth = path.length ∧ (∀ b, b ∈ l.branchBytes ↔ ∃ w ∈ dom m, Begins (path ++ [b]) w) ∧
      l.count = l.branchBytes.ncard ∧ l.getType = Layout.typeFor l.count
  leaf : ∀ w v, m w = some v → ∃ path a p, Begins path w ∧ nodeAt s path = some a ∧
    s.mem.get a = some ⟨p, .leaf v⟩ ∧ (∀ u ∈ dom m, Begins path u → u = w) ∧
      ∀ shorter, shorter <+: path → shorter ≠ path → ∃ u ∈ dom m, u ≠ w ∧ Begins shorter u

/-! ### Paths of bytes -/

/-- The entries whose keys continue with the bytes of a path from a position on. -/
def along (m : Contents n V) (d : ℕ) : List Byte → Contents n V
  | [] => m
  | b :: path => along (fiber m d b) (d + 1) path

theorem mem_dom_along {path : List Byte} : ∀ {m : Contents n V} {d : ℕ} {w : Key n},
    w ∈ dom (along m d path) ↔ w ∈ dom m ∧ ∀ i (lt : i < path.length), path[i] = w.letter (d + i) := by
  induction path with
  | nil =>
      intro m d w
      exact ⟨fun inside => ⟨inside, fun i lt => absurd lt (Nat.not_lt_zero i)⟩, And.left⟩
  | cons b path ih =>
      intro m d w
      show w ∈ dom (along (fiber m d b) (d + 1) path) ↔ _
      rw [ih, mem_dom_fiber]
      constructor
      · rintro ⟨⟨letter, member⟩, rest⟩
        refine ⟨member, fun i lt => ?_⟩
        cases i with
        | zero => exact letter.symm
        | succ i =>
            have here := rest i (Nat.lt_of_succ_lt_succ lt)
            rw [show d + 1 + i = d + (i + 1) by omega] at here
            exact here
      · rintro ⟨member, letters⟩
        refine ⟨⟨(letters 0 (Nat.succ_pos _)).symm, member⟩, fun i lt => ?_⟩
        have here := letters (i + 1) (Nat.succ_lt_succ lt)
        rw [show d + (i + 1) = d + 1 + i by omega] at here
        exact here

theorem begins_iff {path : List Byte} {w : Key n} :
    Begins path w ↔ path.length ≤ n ∧ ∀ i (lt : i < path.length), path[i] = w.letter (0 + i) := by
  unfold Begins
  rw [List.prefix_iff_eq_take]
  constructor
  · intro same
    have le : path.length ≤ n := by
      have length := congrArg List.length same
      rw [List.length_take, Vector.length_toList] at length
      omega
    refine ⟨le, fun i lt => ?_⟩
    rw [Nat.zero_add, Word.letter_of_lt w (lt.trans_le le)]
    have here : path[i]? = (w.chunks.toList.take path.length)[i]? := by rw [← same]
    rw [List.getElem?_take_of_lt lt] at here
    simpa [lt, lt.trans_le le] using here
  · rintro ⟨le, letters⟩
    refine List.ext_getElem (by simp [le]) fun i lt lt' => ?_
    rw [letters i lt, Nat.zero_add, Word.letter_of_lt w (lt.trans_le le)]
    simp

/-- The keys at the end of a path that is not too long. -/
theorem mem_dom_along_iff {M : Contents n V} {path : List Byte} (le : path.length ≤ n) {w : Key n} :
    w ∈ dom (along M 0 path) ↔ w ∈ dom M ∧ Begins path w := by
  rw [mem_dom_along, begins_iff]
  exact ⟨fun inside => ⟨inside.1, le, inside.2⟩, fun inside => ⟨inside.1, inside.2.2⟩⟩

theorem begins_append {path : List Byte} {b : Byte} {w : Key n} (lt : path.length < n) :
    Begins (path ++ [b]) w ↔ Begins path w ∧ w.letter path.length = b := by
  rw [begins_iff, begins_iff]
  have length : (path ++ [b]).length = path.length + 1 := by simp
  constructor
  · rintro ⟨-, letters⟩
    refine ⟨⟨lt.le, fun i less => ?_⟩, ?_⟩
    · have here := letters i (by omega)
      rwa [List.getElem_append_left less] at here
    · have here := letters path.length (by omega)
      rw [List.getElem_append_right le_rfl, Nat.zero_add] at here
      simpa using here.symm
  · rintro ⟨⟨-, letters⟩, letter⟩
    refine ⟨by omega, fun i less => ?_⟩
    rcases Nat.lt_succ_iff_lt_or_eq.mp (length ▸ less) with inside | rfl
    · rw [List.getElem_append_left inside]
      exact letters i inside
    · rw [List.getElem_append_right le_rfl, Nat.zero_add, letter]
      simp

/-! ### The node at the end of a path -/

namespace ArTree

/-- **The node at the end of a path** represents the entries along the path. -/
theorem follow_spec {path : List Byte} : ∀ {p a : Addr} {d : ℕ} {m : Contents n V} {own : Set Addr},
    Rep tr mem p a d m own → follow mem a path = some x →
    ∃ p' own', Rep tr mem p' x (d + path.length) (along m d path) own' := by
  induction path with
  | nil =>
      intro p a d m own rep found
      cases found
      exact ⟨p, own, rep⟩
  | cons b path ih =>
      intro p a d m own rep found
      rcases rep.inspect with ⟨v, cell, -⟩ | ⟨h, l, cell, -⟩
      · simp [follow, cell] at found
      · obtain ⟨sub, parts, -, -⟩ := rep.parts cell
        obtain ⟨w, member⟩ := rep.nonempty
        have depth : branch h = d := parts.describes w member
        rcases slot : l.child b with _ | c
        · simp [follow, cell, Layout.find_ok parts.wf, slot] at found
        · have rest : follow mem c path = some x := by
            simpa [follow, cell, Layout.find_ok parts.wf, slot] using found
          have kid := parts.kid b c slot
          rw [depth] at kid
          obtain ⟨p', own', rep'⟩ := ih kid rest
          refine ⟨p', own', ?_⟩
          rw [List.length_cons, show d + (path.length + 1) = d + 1 + path.length by omega]
          exact rep'

/-- There is an inner node at the end of every path that two keys share. -/
theorem follow_of_nontrivial {path : List Byte} :
    ∀ {p a : Addr} {d : ℕ} {m : Contents n V} {own : Set Addr}, Rep tr mem p a d m own →
      (dom (along m d path)).Nontrivial →
      ∃ x q h l, follow mem a path = some x ∧ mem.get x = some ⟨q, .inner h l⟩ := by
  induction path with
  | nil =>
      intro p a d m own rep several
      rcases rep.inspect with ⟨v, cell, table, -⟩ | ⟨h, l, cell, -⟩
      · have alone : (dom m).Nontrivial := several
        rw [table, dom_single] at alone
        exact absurd alone Set.not_nontrivial_singleton
      · exact ⟨a, some p, h, l, rfl, cell⟩
  | cons b path ih =>
      intro p a d m own rep several
      obtain ⟨w, inside⟩ := several.nonempty
      obtain ⟨member, letters⟩ := mem_dom_along.mp inside
      rcases rep.inspect with ⟨v, cell, table, -⟩ | ⟨h, l, cell, -⟩
      · have wide : (dom m).Nontrivial := several.mono fun u inside => (mem_dom_along.mp inside).1
        rw [table, dom_single] at wide
        exact absurd wide Set.not_nontrivial_singleton
      · obtain ⟨sub, parts, -, -⟩ := rep.parts cell
        have depth : branch h = d := parts.describes w member
        have letter : w.letter (branch h) = b := by
          rw [depth]
          exact (letters 0 (Nat.succ_pos _)).symm
        obtain ⟨c, slot⟩ := parts.child_of_mem member
        rw [letter] at slot
        have kid := parts.kid b c slot
        rw [depth] at kid
        obtain ⟨x, q, h', l', found, cell'⟩ := ih kid several
        refine ⟨x, q, h', l', ?_, cell'⟩
        simp [follow, cell, Layout.find_ok parts.wf, slot, found]

/-- **The leaf of a key** is at the end of the shortest path that no other key shares. -/
theorem follow_leaf {w : Key n} {it : Addr} {v : V} (rep : Rep tr mem p a d m own)
    (entry : m w = some (it, v)) :
    ∃ path q, follow mem a path = some it ∧ mem.get it = some ⟨q, .leaf v⟩ ∧
      dom (along m d path) = {w} ∧
      ∀ shorter, shorter <+: path → shorter ≠ path → (dom (along m d shorter)).Nontrivial ∧
        w ∈ dom (along m d shorter) := by
  induction rep with
  | @leaf p a d v' cell le =>
      rw [single_apply] at entry
      split_ifs at entry with same
      cases entry
      refine ⟨[], some p, rfl, cell, ?_, fun shorter sub other => ?_⟩
      · rw [same]
        exact dom_single _ _
      · exact absurd (List.prefix_nil.mp sub) other
  | @inner p a d m h l sub cell wf fits bound shared describes broad bare kid apart disjoint ih =>
      have member : w ∈ dom m := mem_dom_of_eq_some entry
      have depth : branch h = d := describes w member
      have here : fiber m (branch h) (w.letter (branch h)) w = some (it, v) := by
        rw [fiber_of_letter rfl, entry]
      rcases slot : l.child (w.letter (branch h)) with _ | c
      · rw [(bare _ slot).1] at here
        cases here
      · obtain ⟨path, q, found, leaf, alone, longer⟩ := ih _ c slot here
        rw [depth] at alone longer
        refine ⟨w.letter d :: path, q, ?_, leaf, alone, fun shorter sub other => ?_⟩
        · rw [depth] at slot
          simp [follow, cell, Layout.find_ok wf, slot, found]
        · cases shorter with
          | nil => exact ⟨broad, member⟩
          | cons b shorter =>
              obtain ⟨rfl, below⟩ := List.cons_prefix_cons.mp sub
              exact longer shorter below fun same => other (by rw [same])

/-! ### The whole tree -/

section Whole

variable {s : ArTree.State K V n} {e : Addr} {M : Contents n V}

theorem nodeAt_spec (holds : Holds tr s e M own) {path : List Byte} (found : nodeAt s path = some x) :
    ∃ p' own', Rep tr s.mem p' x path.length (along M 0 path) own' := by
  obtain ⟨r, root, found⟩ := Option.bind_eq_some_iff.mp found
  obtain ⟨rest, ctx, rep, -, -⟩ := holds.path root (tr.defaultTransform tr.defaultKey)
  rw [under_zero] at rep
  obtain ⟨p', own', rep'⟩ := follow_spec rep found
  rw [Nat.zero_add] at rep'
  exact ⟨p', own', rep'⟩

/-- **The shape of a container** is canonical. -/
theorem canonical_of_holds (holds : Holds tr s e M own) : ArTree.Canonical tr s (values M) where
  inner_iff path := by
    rw [dom_values]
    constructor
    · rintro ⟨a, p, h, l, found, cell⟩
      obtain ⟨p', own', rep⟩ := nodeAt_spec holds found
      obtain ⟨sub, parts, -, -⟩ := rep.parts cell
      exact (HeaderSpec.broad_nontrivial parts.broad).mono fun w inside =>
        (mem_dom_along_iff rep.depth_le).mp inside
    · intro several
      obtain ⟨w, member, begins⟩ := several.nonempty
      have le := (begins_iff.mp begins).1
      rcases root : s.tree.root with _ | r
      · rw [holds.eq_empty root] at member
        exact absurd rfl member
      · obtain ⟨rest, ctx, rep, -, -⟩ := holds.path root w
        rw [under_zero] at rep
        obtain ⟨x, q, h, l, found, cell⟩ := follow_of_nontrivial rep
          (several.mono fun u inside => (mem_dom_along_iff le).mpr inside)
        exact ⟨x, q, h, l, by simp [nodeAt, root, found], cell⟩
  inner path a p h l found cell := by
    obtain ⟨p', own', rep⟩ := nodeAt_spec holds found
    obtain ⟨sub, parts, -, -⟩ := rep.parts cell
    obtain ⟨w, member⟩ := rep.nonempty
    have depth : branch h = path.length := parts.describes w member
    have lt : path.length < n := depth ▸ parts.bound
    refine ⟨depth, fun b => ?_, Layout.count_eq_ncard parts.wf, parts.fits.getType⟩
    rw [Layout.mem_branchBytes parts.wf, parts.child_ne_none, depth, dom_values]
    refine exists_congr fun u => ?_
    rw [mem_dom_along_iff lt.le, begins_append lt, and_assoc]
  leaf w v value := by
    obtain ⟨it, entry⟩ := values_eq_some.mp value
    rcases root : s.tree.root with _ | r
    · rw [holds.eq_empty root] at entry
      cases entry
    · obtain ⟨rest, ctx, rep, -, -⟩ := holds.path root w
      rw [under_zero] at rep
      obtain ⟨path, q, found, leaf, alone, longer⟩ := follow_leaf rep entry
      have reached : nodeAt s path = some it := by simp [nodeAt, root, found]
      obtain ⟨p', own', rep'⟩ := nodeAt_spec holds reached
      have le := rep'.depth_le
      have inside : w ∈ dom (along M 0 path) := by
        rw [alone]
        rfl
      refine ⟨path, it, q, ((mem_dom_along_iff le).mp inside).2, reached, leaf,
        fun u member begins => ?_, fun shorter sub other => ?_⟩
      · have here := (mem_dom_along_iff le).mpr ⟨by rwa [dom_values] at member, begins⟩
        rwa [alone] at here
      · obtain ⟨several, -⟩ := longer shorter sub other
        obtain ⟨u, member, differ⟩ := several.exists_ne w
        obtain ⟨inM, begins⟩ := (mem_dom_along_iff (sub.length_le.trans le)).mp member
        exact ⟨u, by rwa [dom_values], differ, begins⟩

end Whole

/-- **The canonical shape of `ar_tree`**, after every history, and its independence of the history. -/
theorem canonical_shape (tr : Traits K V n) :
    (∀ (s : ArTree.State K V n) (m : Table Byte n V), History tr s m → ArTree.Canonical tr s m) ∧
    ∀ (s s' : ArTree.State K V n) (m m' : Table Byte n V), History tr s m → History tr s' m' →
      dom m = dom m' → viewAt id tr s = viewAt id tr s' := by
  constructor
  · intro s m history
    obtain ⟨e, M, own, holds, rfl⟩ := history.holds trivial
    exact canonical_of_holds holds
  · intro s s' m m' history history' keys
    obtain ⟨e, M, own, holds, rfl⟩ := history.holds trivial
    obtain ⟨e', M', own', holds', rfl⟩ := history'.holds trivial
    rw [dom_values, dom_values] at keys
    funext path
    refine Holds.viewAt_eq (fun {h h' d k} describes describes' _ => ?_) holds holds' keys path
    have depth : h.depth = h'.depth := describes.trans describes'.symm
    exact congrArg DepthHeader.mk depth

/-- Two keys inserted in either order. -/
theorem canonical_shape_pair :
    ∃ s s', insertAll (Traits.identity 2) [⟨#v[1, 2]⟩, ⟨#v[1, 3]⟩]
        (blankState DepthHeader (Traits.identity 2)) = .ok ⟨⟩ s ∧
      insertAll (Traits.identity 2) [⟨#v[1, 3]⟩, ⟨#v[1, 2]⟩]
        (blankState DepthHeader (Traits.identity 2)) = .ok ⟨⟩ s' ∧
      ArTree.Canonical (Traits.identity 2) s
        (Table.ofList (Traits.identity 2) [⟨#v[1, 2]⟩, ⟨#v[1, 3]⟩]) ∧
      viewAt id (Traits.identity 2) s = viewAt id (Traits.identity 2) s' := by
  obtain ⟨s, run, history⟩ := insertAll_history (H := DepthHeader) trivial (Traits.identity 2)
    [⟨#v[1, 2]⟩, ⟨#v[1, 3]⟩]
  obtain ⟨s', run', history'⟩ := insertAll_history (H := DepthHeader) trivial (Traits.identity 2)
    [⟨#v[1, 3]⟩, ⟨#v[1, 2]⟩]
  refine ⟨s, s', run, run', (canonical_shape _).1 s _ history,
    (canonical_shape _).2 s s' _ _ history history' ?_⟩
  rw [dom_ofList, dom_ofList]
  exact Set.ext fun w => exists_congr fun x => and_congr_left' (List.Perm.swap _ _ []).mem_iff

end ArTree

end CppArt
