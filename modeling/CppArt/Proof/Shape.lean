/-
**What a representation says about the nodes below.**

`Rep` describes a tree from the top. Here it is read at a node that is reached from the top: the node
represents the entries whose keys share its path (`Rep.at_below`), so the keys of the leaves below it are
exactly those (`Rep.keysBelow_eq`).

* `Rep.exists_inner`: there is an inner node for every position at which the container needs one;
* `Rep.inner_unique`: there is one such node only;
* `Rep.view_eq`: two representations of tables with the same keys look the same.
-/

import CppArt.Model.Shape
import CppArt.Proof.History

namespace CppArt

open Table

variable {H K V : Type} {n : ℕ} [Header H] [HeaderSpec H] {tr : Traits K V n}
  {mem mem' : Memory (Cell H V)} {p a x : Addr} {d : ℕ} {m : Contents n V} {own : Set Addr}

/-! ### Layouts -/

theorem Layout.mem_branchBytes {l : Layout} (wf : l.WF) {b : Byte} :
    b ∈ l.branchBytes ↔ l.child b ≠ none := by
  show (∃ c, l.find b = .ok (some c)) ↔ _
  rw [Layout.find_ok wf, Option.ne_none_iff_exists']
  simp

theorem Layout.find_eq_some {l : Layout} (wf : l.WF) {b : Byte} {c : Addr} :
    l.find b = .ok (some c) ↔ l.child b = some c := by
  rw [Layout.find_ok wf, Except.ok.injEq]

theorem Layout.count_eq_ncard {l : Layout} (wf : l.WF) : l.count = l.branchBytes.ncard := by
  have same : l.branchBytes = ((Finset.univ.filter fun b => l.child b ≠ none : Finset Byte) : Set Byte) := by
    ext b
    simp [Layout.mem_branchBytes wf]
  rw [same, Set.ncard_coe_finset, Layout.count_eq wf]

/-! ### Below a node -/

omit [Header H] [HeaderSpec H] in
theorem Below.trans {b c : Addr} (one : Below mem a b) (two : Below mem b c) : Below mem a c := by
  induction one with
  | refl a => exact two
  | child cell slot rest ih => exact .child cell slot (ih two)

/-- What holds of the parts of an inner node that represents a table. -/
structure Rep.Parts (tr : Traits K V n) (mem : Memory (Cell H V)) (a : Addr) (d : ℕ) (m : Contents n V)
    (h : H) (l : Layout) (sub : Byte → Set Addr) : Prop where
  wf : l.WF
  fits : l.Fits l.count
  bound : branch h < n
  shared : ∀ v ∈ dom m, ∀ w ∈ dom m, Word.Agree (branch h) v w
  describes : ∀ v ∈ dom m, Describes h d v
  broad : Broad H (branch h) (dom m)
  bare : ∀ b, l.child b = none → fiber m (branch h) b = empty ∧ sub b = ∅
  kid : ∀ b c, l.child b = some c → Rep tr mem a c (branch h + 1) (fiber m (branch h) b) (sub b)
  apart : ∀ b, a ∉ sub b
  disjoint : ∀ b b', b ≠ b' → Disjoint (sub b) (sub b')

theorem Rep.parts (rep : Rep tr mem p a d m own) {q : Option Addr} {h : H} {l : Layout}
    (cell : mem.get a = some ⟨q, .inner h l⟩) :
    ∃ sub, Rep.Parts tr mem a d m h l sub ∧ own = around a sub ∧ q = some p := by
  cases rep with
  | leaf cell' le =>
      rw [cell] at cell'
      cases cell'
  | @inner _ _ _ _ h' l' sub cell' wf fits bound shared describes broad bare kid apart disjoint =>
      rw [cell] at cell'
      cases cell'
      exact ⟨sub, ⟨wf, fits, bound, shared, describes, broad, bare, kid, apart, disjoint⟩, rfl, rfl⟩

namespace Rep.Parts

variable {h : H} {l : Layout} {sub : Byte → Set Addr}

theorem depth_le (parts : Rep.Parts tr mem a d m h l sub) : d ≤ branch h := by
  obtain ⟨v, member⟩ := (HeaderSpec.broad_nontrivial parts.broad).nonempty
  exact HeaderSpec.depth_le (parts.describes v member)

/-- There is a child for a byte exactly when a key continues with it. -/
theorem child_ne_none (parts : Rep.Parts tr mem a d m h l sub) {b : Byte} :
    l.child b ≠ none ↔ ∃ w ∈ dom m, w.letter (branch h) = b := by
  constructor
  · intro present
    obtain ⟨c, slot⟩ := Option.ne_none_iff_exists'.mp present
    obtain ⟨w, member⟩ := (parts.kid b c slot).nonempty
    exact ⟨w, (mem_dom_fiber.mp member).2, (mem_dom_fiber.mp member).1⟩
  · intro found none
    obtain ⟨w, member, letter⟩ := found
    have inside : w ∈ dom (fiber m (branch h) b) := mem_dom_fiber.mpr ⟨letter, member⟩
    rw [(parts.bare b none).1, dom_empty] at inside
    exact inside

/-- The child on the path of a key. -/
theorem child_of_mem (parts : Rep.Parts tr mem a d m h l sub) {w : Key n} (member : w ∈ dom m) :
    ∃ c, l.child (w.letter (branch h)) = some c :=
  Option.ne_none_iff_exists'.mp (parts.child_ne_none.mpr ⟨w, member, rfl⟩)

/-- The entries below the child on the path of a key. -/
theorem fiber_eq (parts : Rep.Parts tr mem a d m h l sub) {w : Key n} (member : w ∈ dom m) :
    fiber m (branch h) (w.letter (branch h)) = under m w (branch h + 1) := by
  have descended := fiber_under (Nat.zero_le (branch h)) fun v inside =>
    parts.shared w member v (by rwa [under_zero] at inside)
  rwa [under_zero] at descended

end Rep.Parts

namespace Rep

/-- Every key of a node is on its path. -/
theorem under_eq (rep : Rep tr mem p a d m own) {k : Key n} (member : k ∈ dom m) : under m k d = m := by
  funext v
  by_cases agree : Word.Agree d k v
  · exact under_of_agree agree
  · rw [under_of_not_agree agree]
    by_contra present
    have inside : v ∈ dom m := Ne.symm present
    cases rep with
    | leaf cell le =>
        rw [dom_single] at member inside
        exact agree (by rw [member, inside]; exact Word.Agree.refl d _)
    | inner cell wf fits bound shared describes =>
        exact agree ((shared k member v inside).mono (HeaderSpec.depth_le (describes k member)))

/-- **A node below the top** represents the entries on its path. -/
theorem at_below (rep : Rep tr mem p a d m own) (reached : Below mem a x) :
    ∃ p' d' m' own', Rep tr mem p' x d' m' own' ∧ own' ⊆ own ∧ d ≤ d' ∧
      ∀ k ∈ dom m', k ∈ dom m ∧ m' = under m k d' := by
  induction reached generalizing p d m own with
  | refl a => exact ⟨p, d, m, own, rep, subset_rfl, le_rfl, fun k member => ⟨member, (rep.under_eq member).symm⟩⟩
  | @child a c x q h l b cell slot rest ih =>
      obtain ⟨sub, parts, rfl, -⟩ := rep.parts cell
      rw [Layout.find_eq_some parts.wf] at slot
      obtain ⟨p', d', m', own', rep', within, le, entries⟩ := ih (parts.kid b c slot)
      refine ⟨p', d', m', own', rep', fun y inside => mem_around_of_sub (within inside),
        parts.depth_le.trans ((Nat.le_succ _).trans le), fun k member => ?_⟩
      obtain ⟨inside, table⟩ := entries k member
      obtain ⟨letter, inM⟩ := mem_dom_fiber.mp inside
      refine ⟨inM, ?_⟩
      rw [table, ← letter, parts.fiber_eq inM]
      funext v
      by_cases agree : Word.Agree d' k v
      · rw [under_of_agree agree, under_of_agree agree, under_of_agree (agree.mono le)]
      · rw [under_of_not_agree agree, under_of_not_agree agree]

/-- **The keys of the leaves below a node** are those of its table. -/
theorem keysBelow_eq (rep : Rep tr mem p a d m own) : keysBelow tr mem a = dom m := by
  ext w
  constructor
  · rintro ⟨it, q, v, reached, leaf, rfl⟩
    exact mem_dom_of_eq_some ((rep.below_iff leaf).mp reached)
  · intro member
    obtain ⟨⟨it, v⟩, entry⟩ := exists_of_mem_dom member
    obtain ⟨key, -, q, leaf⟩ := rep.leaf_cell entry
    exact ⟨it, some q, v, (rep.below_iff leaf).mpr (by rw [key, entry]), leaf, key⟩

/-- **An inner node for every position where the container needs one.** -/
theorem exists_inner (rep : Rep tr mem p a d m own) {r : ℕ} {k : Key n} (le : d ≤ r)
    (broad : Broad H r {v | v ∈ dom m ∧ Word.Agree r k v}) :
    ∃ x q h l, Below mem a x ∧ mem.get x = some ⟨q, .inner h l⟩ ∧ branch h = r ∧
      keysBelow tr mem x = {v | v ∈ dom m ∧ Word.Agree r k v} := by
  induction rep with
  | leaf cell le' =>
      have several := (HeaderSpec.broad_nontrivial broad).mono fun v inside => inside.1
      rw [dom_single] at several
      exact absurd several Set.not_nontrivial_singleton
  | @inner p a d m h l sub cell wf fits bound shared describes broad' bare kid apart disjoint ih =>
      obtain ⟨w, member, agree⟩ := (HeaderSpec.broad_nontrivial broad).nonempty
      rcases lt_trichotomy r (branch h) with less | rfl | greater
      · have wide := HeaderSpec.broad_mono (fun v inside => inside.1) broad
        exact absurd wide (HeaderSpec.not_broad describes shared le less)
      · refine ⟨a, some p, h, l, .refl a, cell, rfl, ?_⟩
        rw [(Rep.inner cell wf fits bound shared describes broad' bare kid apart disjoint).keysBelow_eq]
        ext v
        exact ⟨fun inside => ⟨inside, agree.trans (shared w member v inside)⟩, fun inside => inside.1⟩
      · rcases slot : l.child (w.letter (branch h)) with _ | c
        · have inside : w ∈ dom (fiber m (branch h) (w.letter (branch h))) :=
            mem_dom_fiber.mpr ⟨rfl, member⟩
          rw [(bare _ slot).1, dom_empty] at inside
          exact absurd inside (Set.notMem_empty w)
        · have same : {v | v ∈ dom (fiber m (branch h) (w.letter (branch h))) ∧ Word.Agree r k v}
              = {v | v ∈ dom m ∧ Word.Agree r k v} := by
            ext v
            refine ⟨fun inside => ⟨(mem_dom_fiber.mp inside.1).2, inside.2⟩, fun inside =>
              ⟨mem_dom_fiber.mpr ⟨?_, inside.1⟩, inside.2⟩⟩
            exact (inside.2 _ greater).symm.trans (agree _ greater)
          obtain ⟨x, q, h', l', reached, cell', here, keys⟩ := ih _ c slot greater (same ▸ broad)
          exact ⟨x, q, h', l', .child cell ((Layout.find_eq_some wf).mpr slot) reached, cell', here,
            keys.trans same⟩

/-- Nodes further down branch further on. -/
theorem branch_lt_of_below {c q : Addr} {own' : Set Addr} {m' : Contents n V} {r : ℕ}
    (rep : Rep tr mem q c (r + 1) m' own') (reached : Below mem c x) {q' : Option Addr} {h : H}
    {l : Layout} (cell : mem.get x = some ⟨q', .inner h l⟩) : r < branch h := by
  obtain ⟨p', d', m'', own'', rep', -, le, -⟩ := rep.at_below reached
  obtain ⟨sub, parts, -, -⟩ := rep'.parts cell
  exact le.trans parts.depth_le

/-- **One inner node only** branches at a position of the path of a key. -/
theorem inner_unique (rep : Rep tr mem p a d m own) {y : Addr} {q q' : Option Addr} {h h' : H}
    {l l' : Layout} {k : Key n} (reachedX : Below mem a x) (reachedY : Below mem a y)
    (cellX : mem.get x = some ⟨q, .inner h l⟩) (cellY : mem.get y = some ⟨q', .inner h' l'⟩)
    (same : branch h = branch h') (onX : k ∈ keysBelow tr mem x) (onY : k ∈ keysBelow tr mem y) :
    x = y := by
  induction reachedX generalizing p d m own y with
  | refl a =>
      cases reachedY with
      | refl => rfl
      | @child _ c _ _ h₁ l₁ b cell slot rest =>
          rw [cell] at cellX
          cases cellX
          obtain ⟨sub, parts, -, -⟩ := rep.parts cell
          rw [Layout.find_eq_some parts.wf] at slot
          exact absurd same ((parts.kid b c slot).branch_lt_of_below rest cellY).ne
  | @child a c x _ h₁ l₁ b cell slot rest ih =>
      obtain ⟨sub, parts, -, -⟩ := rep.parts cell
      rw [Layout.find_eq_some parts.wf] at slot
      cases reachedY with
      | refl =>
          rw [cell] at cellY
          cases cellY
          exact absurd same.symm ((parts.kid b c slot).branch_lt_of_below rest cellX).ne
      | @child _ c' _ _ h₂ l₂ b' cell' slot' rest' =>
          rw [cell] at cell'
          cases cell'
          rw [Layout.find_eq_some parts.wf] at slot'
          have letterX : k.letter (branch h₁) = b := by
            obtain ⟨p₁, d₁, m₁, own₁, rep₁, -, -, entries⟩ := (parts.kid b c slot).at_below rest
            rw [rep₁.keysBelow_eq] at onX
            exact (mem_dom_fiber.mp (entries k onX).1).1
          have letterY : k.letter (branch h₁) = b' := by
            obtain ⟨p₁, d₁, m₁, own₁, rep₁, -, -, entries⟩ := (parts.kid b' c' slot').at_below rest'
            rw [rep₁.keysBelow_eq] at onY
            exact (mem_dom_fiber.mp (entries k onY).1).1
          rw [← letterX] at slot
          rw [← letterY, slot, Option.some.injEq] at slot'
          subst slot'
          exact ih (parts.kid _ c slot) rest' cellX cellY onX onY

end Rep

/-! ### Two representations of the same keys -/

section Views

variable {p' a' : Addr} {m' : Contents n V} {own' : Set Addr} {h h' : H} {l l' : Layout}
  {sub sub' : Byte → Set Addr}

/-- Nodes at one depth with the same keys branch at the same position. -/
theorem Rep.Parts.branch_eq (parts : Rep.Parts tr mem a d m h l sub)
    (parts' : Rep.Parts tr mem' a' d m' h' l' sub') (keys : dom m = dom m') : branch h = branch h' := by
  rcases lt_trichotomy (branch h) (branch h') with less | same | greater
  · have broad := parts.broad
    rw [keys] at broad
    exact absurd broad (HeaderSpec.not_broad parts'.describes parts'.shared parts.depth_le less)
  · exact same
  · have broad := parts'.broad
    rw [← keys] at broad
    exact absurd broad (HeaderSpec.not_broad parts.describes parts.shared parts'.depth_le greater)

/-- Nodes with the same keys that branch at the same position have children for the same bytes. -/
theorem Rep.Parts.branchBytes_eq (parts : Rep.Parts tr mem a d m h l sub)
    (parts' : Rep.Parts tr mem' a' d m' h' l' sub') (keys : dom m = dom m') :
    l.branchBytes = l'.branchBytes := by
  ext b
  rw [Layout.mem_branchBytes parts.wf, Layout.mem_branchBytes parts'.wf, parts.child_ne_none,
    parts'.child_ne_none, keys, parts.branch_eq parts' keys]

/-- And they are of the same type. -/
theorem Rep.Parts.getType_eq (parts : Rep.Parts tr mem a d m h l sub)
    (parts' : Rep.Parts tr mem' a' d m' h' l' sub') (keys : dom m = dom m') : l.getType = l'.getType := by
  rw [parts.fits.getType, parts'.fits.getType, Layout.count_eq_ncard parts.wf,
    Layout.count_eq_ncard parts'.wf, parts.branchBytes_eq parts' keys]

/-- The view from a node down. -/
def viewFrom (fields : H → H) (tr : Traits K V n) (mem : Memory (Cell H V)) (a : Addr)
    (path : List Byte) : Option (View H n) :=
  (follow mem a path).bind fun x => (mem.get x).bind (viewOf fields tr)

omit [HeaderSpec H] [Header H] in
theorem viewFrom_leaf {fields : H → H} {q : Option Addr} {v : V} (cell : mem.get a = some ⟨q, .leaf v⟩)
    (path : List Byte) :
    viewFrom fields tr mem a path = if path = [] then some (.leaf (tr.keyOf v)) else none := by
  cases path with
  | nil => simp [viewFrom, follow, cell, viewOf]
  | cons b path => simp [viewFrom, follow, cell]

omit [HeaderSpec H] [Header H] in
theorem viewFrom_inner_cons {fields : H → H} {q : Option Addr}
    (cell : mem.get a = some ⟨q, .inner h l⟩) (wf : l.WF) (b : Byte) (path : List Byte) :
    viewFrom fields tr mem a (b :: path) = (l.child b).bind fun c => viewFrom fields tr mem c path := by
  cases slot : l.child b <;> simp [viewFrom, follow, cell, Layout.find_ok wf, slot]

/-- **Two representations of tables with the same keys look the same.** -/
theorem Rep.view_eq {fields : H → H}
    (same : ∀ {h h' : H} {d : ℕ} {k : Key n}, Describes h d k → Describes h' d k →
      branch h = branch h' → fields h = fields h') (path : List Byte) :
    ∀ {p a p' a' : Addr} {d : ℕ} {m m' : Contents n V} {own own' : Set Addr},
      Rep tr mem p a d m own → Rep tr mem' p' a' d m' own' → dom m = dom m' →
      viewFrom fields tr mem a path = viewFrom fields tr mem' a' path := by
  induction path with
  | nil =>
      intro p a p' a' d m m' own own' rep rep' keys
      rcases rep.inspect with ⟨v, cell, table, -⟩ | ⟨h, l, cell, -⟩ <;>
        rcases rep'.inspect with ⟨v', cell', table', -⟩ | ⟨h', l', cell', -⟩
      · rw [table, table', dom_single, dom_single] at keys
        rw [viewFrom_leaf cell, viewFrom_leaf cell', Set.singleton_injective keys]
      · have several := HeaderSpec.broad_nontrivial (rep'.broad cell')
        rw [← keys, table, dom_single] at several
        exact absurd several Set.not_nontrivial_singleton
      · have several := HeaderSpec.broad_nontrivial (rep.broad cell)
        rw [keys, table', dom_single] at several
        exact absurd several Set.not_nontrivial_singleton
      · obtain ⟨sub, parts, -, -⟩ := rep.parts cell
        obtain ⟨sub', parts', -, -⟩ := rep'.parts cell'
        obtain ⟨w, member⟩ := rep.nonempty
        have fieldsEq := same (parts.describes w member) (parts'.describes w (keys ▸ member))
          (parts.branch_eq parts' keys)
        simp [viewFrom, follow, cell, cell', viewOf, fieldsEq, parts.getType_eq parts' keys]
  | cons b path ih =>
      intro p a p' a' d m m' own own' rep rep' keys
      rcases rep.inspect with ⟨v, cell, table, -⟩ | ⟨h, l, cell, -⟩ <;>
        rcases rep'.inspect with ⟨v', cell', table', -⟩ | ⟨h', l', cell', -⟩
      · rw [viewFrom_leaf cell, viewFrom_leaf cell', if_neg (List.cons_ne_nil _ _),
          if_neg (List.cons_ne_nil _ _)]
      · have several := HeaderSpec.broad_nontrivial (rep'.broad cell')
        rw [← keys, table, dom_single] at several
        exact absurd several Set.not_nontrivial_singleton
      · have several := HeaderSpec.broad_nontrivial (rep.broad cell)
        rw [keys, table', dom_single] at several
        exact absurd several Set.not_nontrivial_singleton
      · obtain ⟨sub, parts, -, -⟩ := rep.parts cell
        obtain ⟨sub', parts', -, -⟩ := rep'.parts cell'
        have position := parts.branch_eq parts' keys
        have bytes := parts.branchBytes_eq parts' keys
        rw [viewFrom_inner_cons cell parts.wf, viewFrom_inner_cons cell' parts'.wf]
        rcases slot : l.child b with _ | c <;> rcases slot' : l'.child b with _ | c'
        · rfl
        · have present : b ∈ l.branchBytes := by
            rw [bytes, Layout.mem_branchBytes parts'.wf, slot']
            exact Option.some_ne_none c'
          rw [Layout.mem_branchBytes parts.wf] at present
          exact absurd slot present
        · have present : b ∈ l'.branchBytes := by
            rw [← bytes, Layout.mem_branchBytes parts.wf, slot]
            exact Option.some_ne_none c
          rw [Layout.mem_branchBytes parts'.wf] at present
          exact absurd slot' present
        · have kid' := parts'.kid b c' slot'
          rw [← position] at kid'
          refine ih (parts.kid b c slot) kid' ?_
          ext w
          rw [mem_dom_fiber, mem_dom_fiber, keys]

/-- **The view of a container** is determined by the stored keys. -/
theorem Holds.viewAt_eq {s s' : St H K V n} {e e' : Addr} {M M' : Contents n V} {fields : H → H}
    (same : ∀ {h h' : H} {d : ℕ} {k : Key n}, Describes h d k → Describes h' d k →
      branch h = branch h' → fields h = fields h')
    (holds : Holds tr s e M own) (holds' : Holds tr s' e' M' own') (keys : dom M = dom M')
    (path : List Byte) : viewAt fields tr s path = viewAt fields tr s' path := by
  have k := tr.defaultTransform tr.defaultKey
  rcases root : s.tree.root with _ | r <;> rcases root' : s'.tree.root with _ | r'
  · simp [viewAt, nodeAt, root, root']
  · obtain ⟨rest', ctx', rep', -, -⟩ := holds'.path root' k
    obtain ⟨w, member⟩ := rep'.nonempty
    rw [under_zero, ← keys, holds.eq_empty root, dom_empty] at member
    exact absurd member (Set.notMem_empty w)
  · obtain ⟨rest, ctx, rep, -, -⟩ := holds.path root k
    obtain ⟨w, member⟩ := rep.nonempty
    rw [under_zero, keys, holds'.eq_empty root', dom_empty] at member
    exact absurd member (Set.notMem_empty w)
  · obtain ⟨rest, ctx, rep, -, -⟩ := holds.path root k
    obtain ⟨rest', ctx', rep', -, -⟩ := holds'.path root' k
    rw [under_zero] at rep rep'
    have views := Rep.view_eq same path rep rep' keys
    simpa [viewAt, nodeAt, root, root', viewFrom] using views

end Views

/-! ### Any node of a container -/

/-- **A node that is reached** represents the entries on its path. -/
theorem Holds.at_reached {s : St H K V n} {e : Addr} {M : Contents n V} (holds : Holds tr s e M own)
    (reached : Reached s x) : ∃ p' d' m' own', Rep tr s.mem p' x d' m' own' ∧
      ∀ k ∈ dom m', k ∈ dom M ∧ m' = under M k d' := by
  obtain ⟨r, root, below⟩ := reached
  obtain ⟨rest, ctx, rep, -, -⟩ := holds.path root (tr.defaultTransform tr.defaultKey)
  rw [under_zero] at rep
  obtain ⟨p', d', m', own', rep', -, -, entries⟩ := rep.at_below below
  exact ⟨p', d', m', own', rep', entries⟩

/-- The children of a node that is reached have it as their parent. -/
theorem Holds.child_cell {s : St H K V n} {e c : Addr} {M : Contents n V} {h : H} {l : Layout} {b : Byte}
    (holds : Holds tr s e M own) (inner : IsInner s a h l) (slot : l.find b = .ok (some c)) :
    ∃ body, s.mem.get c = some ⟨some a, body⟩ := by
  obtain ⟨reached, p, cell⟩ := inner
  obtain ⟨p', d', m', own', rep, -⟩ := holds.at_reached reached
  obtain ⟨sub, parts, -, -⟩ := rep.parts cell
  exact (parts.kid b c ((Layout.find_eq_some parts.wf).mp slot)).top_cell

omit [Header H] [HeaderSpec H] in
/-- A node that is reached is the root or the child of an inner node. -/
theorem Reached.parent {s : St H K V n} (reached : Reached s x) :
    s.tree.root = some x ∨ ∃ a h l b, IsInner s a h l ∧ l.find b = .ok (some x) := by
  obtain ⟨top, root, below⟩ := reached
  have step : ∀ {a x : Addr}, Below s.mem a x → Reached s a →
      x = a ∨ ∃ q h l b, IsInner s q h l ∧ l.find b = .ok (some x) := by
    intro a x below
    induction below with
    | refl a => exact fun _ => .inl rfl
    | @child a c x p h l b cell slot rest ih =>
        intro above
        obtain ⟨top, root, path⟩ := above
        rcases ih ⟨top, root, path.trans (.child cell slot (.refl c))⟩ with rfl | found
        · exact .inr ⟨a, h, l, b, ⟨⟨top, root, path⟩, p, cell⟩, slot⟩
        · exact .inr found
  rcases step below ⟨top, root, .refl top⟩ with rfl | found
  · exact .inl root
  · exact .inr found

omit [Header H] [HeaderSpec H] in
/-- The child of a node that is reached is reached. -/
theorem IsInner.child {s : St H K V n} {h : H} {l : Layout} {b : Byte} {c : Addr} (inner : IsInner s a h l)
    (slot : l.find b = .ok (some c)) : Reached s c := by
  obtain ⟨⟨top, root, path⟩, p, cell⟩ := inner
  exact ⟨top, root, path.trans (.child cell slot (.refl c))⟩

end CppArt
