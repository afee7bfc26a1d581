/-
**Growing, shrinking and inserting a node above.**

`grow` and `shrink` put the children of a node into a new layout: the new node stands for the same
part of the table (`grow_spec`, `shrink_spec`). Both happen at a node whose child for the key at hand
is missing, either because it is about to be inserted or because it has just been erased. `newOneWay`
puts a node with one child in the place of that child.
-/

import CppArt.Proof.Path

namespace CppArt

open Table

variable {H K V : Type} {n : ℕ}

/-- `children[i]->_parent = this` for a list of children. -/
theorem adopt_spec (node : Addr) : ∀ (kids : List (Option Addr)) (s : St H K V n),
    (∀ x ∈ kids, ∃ c cell, x = some c ∧ s.mem.get c = some cell) →
    ∃ mem', adopt node kids s = .ok ⟨⟩ (s.withMem mem') ∧ mem'.next = s.mem.next ∧
      mem'.failAt = s.mem.failAt ∧
      (∀ c cell, some c ∈ kids → s.mem.get c = some cell →
        mem'.get c = some ⟨some node, cell.body⟩) ∧
      ∀ x, some x ∉ kids → mem'.get x = s.mem.get x
  | [], s, _ => ⟨s.mem, rfl, rfl, rfl, by simp, fun _ _ => rfl⟩
  | kid :: kids, s, live => by
      obtain ⟨c, cell, rfl, here⟩ := live kid List.mem_cons_self
      let mem₁ := s.mem.set c ⟨some node, cell.body⟩
      have self : mem₁.get c = some ⟨some node, cell.body⟩ := Memory.set_get_self here _
      have others : ∀ x, x ≠ c → mem₁.get x = s.mem.get x := fun x => Memory.set_get_of_ne _ _
      obtain ⟨mem', run, next, failAt, adopted, kept⟩ := adopt_spec node kids (s.withMem mem₁)
        fun x member => by
          obtain ⟨c', cell', rfl, here'⟩ := live x (List.mem_cons_of_mem _ member)
          by_cases same : c' = c
          · exact ⟨c', _, rfl, same ▸ self⟩
          · exact ⟨c', cell', rfl, (others c' same).trans here'⟩
      refine ⟨mem', ?_, next, failAt, fun c' cell' member here' => ?_, fun x absent => ?_⟩
      · have first : (do setParent c (some node) : Run H K V n Unit) s = .ok ⟨⟩ (s.withMem mem₁) :=
          setParent_ok here (some node)
        have unfolded : adopt node (some c :: kids) s
            = (setParent c (some node) >>= fun _ => adopt node kids) s := rfl
        rw [unfolded, Exec.bind_of_ok first, run, St.withMem_withMem]
      · by_cases same : c' = c
        · subst same
          rw [here, Option.some.injEq] at here'
          subst here'
          by_cases again : some c' ∈ kids
          · exact adopted c' ⟨some node, cell.body⟩ again self
          · exact (kept c' again).trans self
        · have later : some c' ∈ kids := by
            rcases List.mem_cons.mp member with head | tail
            · exact absurd (Option.some.inj head) same
            · exact tail
          exact adopted c' cell' later ((others c' same).trans here')
      · have other : x ≠ c := fun same => absent (same ▸ List.mem_cons_self)
        exact (kept x fun tail => absent (List.mem_cons_of_mem _ tail)).trans (others x other)

/-- **The memory after a node has moved to a new layout**: the node is at the new address, the old one
is gone, and the children have the new node as their parent and are otherwise as before. -/
structure Relaid (mem mem' : Memory (Cell H V)) (a : Addr) (p : Option Addr) (h : H) (l : Layout) :
    Prop where
  next : mem'.next = mem.next + 1
  failAt : mem'.failAt = mem.failAt
  cell : mem'.get mem.next = some ⟨p, .inner h l⟩
  gone : mem'.get a = none
  kid : ∀ b c cell, l.child b = some c → mem.get c = some cell →
    mem'.get c = some ⟨some mem.next, cell.body⟩
  get : ∀ x, x ≠ a → x < mem.next → (∀ b, l.child b ≠ some x) → mem'.get x = mem.get x

/-- **A node moves to a new layout**, as `grow` and `shrink` construct it. -/
theorem relayout_run {s : St H K V n} {a : Addr} {p : Option Addr} {h : H} {l l' : Layout}
    (cell : s.mem.get a = some ⟨p, .inner h l⟩) (granted : s.mem.failAt ≠ some s.mem.next)
    {kids : List (Option Addr)} (lists : l.Lists kids) (children : ∀ b, l'.child b = l.child b)
    (live : ∀ b c, l.child b = some c → c ≠ a ∧ ∃ cell, s.mem.get c = some cell) :
    ∃ mem', (∀ {α : Type} (rest : Addr → Run H K V n α), (do
        let g ← new ⟨p, .inner h l'⟩
        adopt g kids
        delete a
        rest g : Run H K V n α) s = rest s.mem.next (s.withMem mem')) ∧
      Relaid s.mem mem' a p h l' := by
  let mem₁ := s.mem.alloc ⟨p, .inner h l'⟩
  have old : ∀ x cell, s.mem.get x = some cell → mem₁.get x = some cell :=
    fun x cell here => Memory.alloc_get_of_get here _
  have listed : ∀ c, some c ∈ kids → c ≠ a ∧ ∃ cell, s.mem.get c = some cell := by
    intro c member
    obtain ⟨b, c', same, found⟩ := (lists _).mp member
    rw [Option.some.injEq] at same
    exact live b c (same ▸ found)
  obtain ⟨mem₂, adopted, next, failAt, reparented, kept⟩ := adopt_spec s.mem.next kids (s.withMem mem₁)
    fun x member => by
      obtain ⟨b, c, rfl, -⟩ := (lists x).mp member
      obtain ⟨-, cell, here⟩ := listed c member
      exact ⟨c, cell, rfl, old c cell here⟩
  have notA : some a ∉ kids := fun member => (listed a member).1 rfl
  have notNew : some s.mem.next ∉ kids := fun member => by
    obtain ⟨-, cell, here⟩ := listed _ member
    exact absurd (Memory.lt_next_of_get here) (lt_irrefl _)
  have here : mem₂.get a = some ⟨p, .inner h l⟩ := (kept a notA).trans (old a _ cell)
  have other : s.mem.next ≠ a := (Memory.lt_next_of_get cell).ne'
  refine ⟨mem₂.free a, fun rest => ?_, next, failAt, ?_, Memory.free_get_self _ _,
    fun b c cellC child before => ?_, fun x notX older unlisted => ?_⟩
  · rw [Exec.bind_of_ok (new_granted _ granted), Exec.bind_of_ok adopted,
      Exec.bind_of_ok (delete_ok here)]
    rfl
  · exact (Memory.free_get_of_ne _ other).trans ((kept _ notNew).trans (Memory.alloc_get_next _ _))
  · have member : some c ∈ kids := (lists _).mpr ⟨b, c, rfl, (children b).symm.trans child⟩
    exact (Memory.free_get_of_ne _ (listed c member).1).trans (reparented c _ member (old c _ before))
  · have absent : some x ∉ kids := fun member => by
      obtain ⟨b, c, same, found⟩ := (lists _).mp member
      exact unlisted b ((children b).trans (found.trans same.symm))
    exact (Memory.free_get_of_ne _ notX).trans
      ((kept x absent).trans (Memory.alloc_get_of_ne _ _ older.ne))

/-- **`grow`** of a full node. -/
theorem grow_run {s : St H K V n} {a : Addr} {p : Option Addr} {h : H} {l : Layout}
    (cell : s.mem.get a = some ⟨p, .inner h l⟩) (wf : l.WF) (full : l.count = l.maxSize)
    (notLast : l.count < 256) (granted : s.mem.failAt ≠ some s.mem.next)
    (live : ∀ b c, l.child b = some c → c ≠ a ∧ ∃ cell, s.mem.get c = some cell) :
    ∃ l' mem', grow a s = .ok s.mem.next (s.withMem mem') ∧ Relaid s.mem mem' a p h l' ∧ l'.WF ∧
      l'.count = l.count ∧ l'.Fits (l'.count + 1) ∧ ∀ b, l'.child b = l.child b := by
  obtain ⟨l', grown, wf', count, fits, children⟩ := Layout.grown_spec wf full notLast
  have lists := Layout.grownKids_lists wf full notLast
  obtain ⟨mem', run, relaid⟩ := relayout_run cell granted lists children live
  refine ⟨l', mem', ?_, relaid, wf', count, by rwa [count], children⟩
  unfold grow
  rw [Exec.bind_of_ok (load_ok cell)]
  simp only [grown]
  exact run pure

/-- **`shrink`** of a node of one of the three larger types that holds one child too few. -/
theorem shrink_run {s : St H K V n} {a : Addr} {p : Option Addr} {h : H} {l : Layout}
    (cell : s.mem.get a = some ⟨p, .inner h l⟩) (wf : l.WF) (small : l.count + 1 = l.minSize)
    (notFirst : l.getType ≠ .node4) (granted : s.mem.failAt ≠ some s.mem.next)
    (live : ∀ b c, l.child b = some c → c ≠ a ∧ ∃ cell, s.mem.get c = some cell) :
    ∃ l' mem', shrink a s = .ok (s.mem.next, true) (s.withMem mem') ∧ Relaid s.mem mem' a p h l' ∧
      l'.WF ∧ l'.count = l.count ∧ l'.Fits l'.count ∧ ∀ b, l'.child b = l.child b := by
  obtain ⟨l', shrunk, wf', count, fits, children⟩ := Layout.shrunk_spec wf small notFirst
  have lists := Layout.shrunkKids_lists wf small notFirst
  obtain ⟨mem', run, relaid⟩ := relayout_run cell granted lists children live
  refine ⟨l', mem', ?_, relaid, wf', count, by rwa [count], children⟩
  have paired : (do
        let shrunk ← Exec.lift l.shrunk
        let g ← new ⟨p, .inner h shrunk⟩
        adopt g l.shrunkKids
        delete a
        pure (g, true) : Run H K V n (Addr × Bool)) s = .ok (s.mem.next, true) (s.withMem mem') := by
    rw [shrunk, Exec.bind_of_ok (Exec.lift_ok _ _)]
    exact run fun g => pure (g, true)
  unfold shrink
  rw [Exec.bind_of_ok (load_ok cell)]
  cases l with
  | node4 nd => exact absurd rfl notFirst
  | node16 nd => exact paired
  | node48 nd => exact paired
  | node256 nd => exact paired

variable [Header H] [HeaderSpec H] {tr : Traits K V n} {k : Key n} {M : Contents n V}

section Relaid

variable {s : St H K V n} {p a : Addr} {d : ℕ} {h : H} {l l' : Layout} {sub : Byte → Set Addr}

/-- The children of a node at which the byte of the key is missing hang beside the path. -/
theorem PathNode.beside (node : PathNode tr s.mem k M p a d h l sub)
    (missing : l.child (k.letter (branch h)) = none) {b : Byte} {c : Addr} (child : l.child b = some c) :
    b ≠ k.letter (branch h) ∧ c ∈ sub b := by
  have other : b ≠ k.letter (branch h) := by
    rintro rfl
    rw [missing] at child
    cases child
  exact ⟨other, (node.kid b other c child).top_mem⟩

theorem PathNode.children_live (node : PathNode tr s.mem k M p a d h l sub)
    (missing : l.child (k.letter (branch h)) = none) (b : Byte) (c : Addr) (child : l.child b = some c) :
    c ≠ a ∧ ∃ cell, s.mem.get c = some cell := by
  have inside : c ∈ sub b := (node.beside missing child).2
  exact ⟨fun same => node.apart b (same ▸ inside), node.live c (mem_around_of_sub inside)⟩

/-- **A node of the tree in a new layout.** -/
theorem PathNode.relaid {mem' : Memory (Cell H V)} (node : PathNode tr s.mem k M p a d h l sub)
    (missing : l.child (k.letter (branch h)) = none) (wf' : l'.WF)
    (children : ∀ b, l'.child b = l.child b) (relaid : Relaid s.mem mem' a (some p) h l') :
    PathNode tr mem' k M p s.mem.next d h l' sub ∧ Memory.Keeps s.mem mem' (around a sub) ∧
      Memory.Renews s.mem mem' (around a sub) (around s.mem.next sub) := by
  have beside : ∀ b c, l'.child b = some c → c ∈ sub b := fun b c found =>
    (node.beside missing ((children b).symm.trans found)).2
  have below : ∀ b, ∀ x ∈ sub b, x < s.mem.next := fun b x inside => by
    obtain ⟨cell, here⟩ := node.live x (mem_around_of_sub inside)
    exact Memory.lt_next_of_get here
  refine ⟨⟨relaid.cell, wf', node.bound, node.shared, node.describes, ?_, ?_, node.hole, ?_,
    node.disjoint⟩, ⟨?_, relaid.failAt, ?_⟩, ?_⟩
  · exact fun b other none => node.bare b other ((children b).symm.trans none)
  · intro b other c child
    have rep := node.kid b other c ((children b).symm.trans child)
    obtain ⟨body, before⟩ := rep.top_cell
    refine rep.reparent before (relaid.kid b c _ child before) fun x inside => ?_
    have notA : x ≠ a := fun same => node.apart b (same ▸ inside.1)
    refine relaid.get x notA (below b x inside.1) fun b' found => ?_
    by_cases sameByte : b' = b
    · rw [sameByte, child, Option.some.injEq] at found
      exact inside.2 found.symm
    · exact Set.disjoint_left.mp (node.disjoint b' b sameByte) (beside b' x found) inside.1
  · exact fun b inside => absurd (below b _ inside) (lt_irrefl _)
  · exact (Nat.le_succ _).trans relaid.next.ge
  · intro x outside older
    have notA : x ≠ a := by
      rintro rfl
      exact outside (Set.mem_insert x _)
    exact relaid.get x notA older fun b found => outside (mem_around_of_sub (beside b x found))
  · have both : Memory.Renews s.mem mem' (around a sub) (around a sub ∪ {s.mem.next}) :=
      Memory.Renews.of_next_succ _ relaid.next
    refine both.drop (fun x inside => ?_) fun x inside outside => ?_
    · rcases inside with rfl | beside
      · exact Or.inr rfl
      · exact Or.inl (Or.inr beside)
    · rcases inside with (rfl | beside) | rfl
      · exact relaid.gone
      · exact absurd (Or.inr beside) outside
      · exact absurd (Set.mem_insert _ _) outside

/-- **`grow`** of a full node in which the byte of the key is missing. -/
theorem grow_spec (node : PathNode tr s.mem k M p a d h l sub)
    (missing : l.child (k.letter (branch h)) = none) (full : l.count = l.maxSize)
    (calm : s.mem.failAt = none) :
    ∃ l' mem', grow a s = .ok s.mem.next (s.withMem mem') ∧
      PathNode tr mem' k M p s.mem.next d h l' sub ∧ l'.Fits (l'.count + 1) ∧
      (∀ b, l'.child b = l.child b) ∧ Memory.Keeps s.mem mem' (around a sub) ∧
      Memory.Renews s.mem mem' (around a sub) (around s.mem.next sub) := by
  obtain ⟨l', mem', run, relaid, wf', -, fits, children⟩ := grow_run node.cell node.wf full
    (Layout.count_lt_of_absent node.wf missing) (by simp [calm]) (node.children_live missing)
  obtain ⟨node', keeps, renews⟩ := node.relaid missing wf' children relaid
  exact ⟨l', mem', run, node', fits, children, keeps, renews⟩

/-- **`shrink`** of a node of one of the three larger types from which the byte of the key has been
erased. -/
theorem shrink_spec (node : PathNode tr s.mem k M p a d h l sub)
    (missing : l.child (k.letter (branch h)) = none) (small : l.count + 1 = l.minSize)
    (notFirst : l.getType ≠ .node4) (calm : s.mem.failAt = none) :
    ∃ l' mem', shrink a s = .ok (s.mem.next, true) (s.withMem mem') ∧
      PathNode tr mem' k M p s.mem.next d h l' sub ∧ l'.Fits l'.count ∧ l'.count = l.count ∧
      (∀ b, l'.child b = l.child b) ∧ Memory.Keeps s.mem mem' (around a sub) ∧
      Memory.Renews s.mem mem' (around a sub) (around s.mem.next sub) := by
  obtain ⟨l', mem', run, relaid, wf', count, fits, children⟩ := shrink_run node.cell node.wf small
    notFirst (by simp [calm]) (node.children_live missing)
  obtain ⟨node', keeps, renews⟩ := node.relaid missing wf' children relaid
  exact ⟨l', mem', run, node', fits, count, children, keeps, renews⟩

end Relaid

omit [Header H] [HeaderSpec H] in
/-- The only child of a `_Node_4`. -/
theorem childAt_of_count_one {nd : Node4} (wf : (Layout.node4 nd).WF) {b : Byte} {c : Addr}
    (child : (Layout.node4 nd).child b = some c) (one : (Layout.node4 nd).count = 1) :
    nd.childAt 0 = .ok c ∧ nd.firstKey = b := by
  have positive : 0 < nd.count := Nat.lt_of_lt_of_eq Nat.one_pos one.symm
  obtain ⟨c', run, found⟩ := SortedNode.WF.childAt_ok wf positive
  have same : nd.key 0 = b := Layout.eq_of_count_one wf one (Layout.mem_bytes_of_child found)
    (Layout.mem_bytes_of_child child)
  have here : nd.find b = some c := child
  rw [← same, found, Option.some.injEq] at here
  exact ⟨here ▸ run, by simpa [SortedNode.key, SortedNode.firstKey] using same⟩

omit [Header H] [HeaderSpec H] in
/-- **`shrink`** of a `_Node_4` whose only child is a leaf: the leaf takes its place. -/
theorem shrink_leaf {s : St H K V n} {a c : Addr} {p p' : Option Addr} {h : H} {l : Layout} {v : V}
    {b : Byte} (wf : l.WF) (cell : s.mem.get a = some ⟨p, .inner h l⟩) (first : l.getType = .node4)
    (child : l.child b = some c) (one : l.count = 1) (leaf : s.mem.get c = some ⟨p', .leaf v⟩)
    (cell' : (s.mem.set c ⟨p, .leaf v⟩).get a = some ⟨p, .inner h l⟩) :
    shrink a s = .ok (c, true) (s.withMem ((s.mem.set c ⟨p, .leaf v⟩).free a)) := by
  cases l with
  | node4 nd =>
      unfold shrink
      rw [Exec.bind_of_ok (load_ok cell)]
      simp only [(childAt_of_count_one wf child one).1]
      rw [Exec.bind_of_ok (Exec.lift_ok _ _), Exec.bind_of_ok (isLeaf_leaf leaf), if_pos rfl,
        Exec.bind_of_ok (setParent_ok leaf _)]
      exact Exec.bind_of_ok (delete_ok (s := s.withMem _) cell') _
  | node16 nd => cases first
  | node48 nd => cases first
  | node256 nd => cases first

omit [Header H] [HeaderSpec H] in
/-- **`shrink`** of a `_Node_4` whose only child is an inner node changes nothing. -/
theorem shrink_inner {s : St H K V n} {a c : Addr} {p p' : Option Addr} {h h' : H} {l l' : Layout}
    {b : Byte} (wf : l.WF) (cell : s.mem.get a = some ⟨p, .inner h l⟩) (first : l.getType = .node4)
    (child : l.child b = some c) (one : l.count = 1)
    (inner : s.mem.get c = some ⟨p', .inner h' l'⟩) : shrink a s = .ok (a, false) s := by
  cases l with
  | node4 nd =>
      unfold shrink
      rw [Exec.bind_of_ok (load_ok cell)]
      simp only [(childAt_of_count_one wf child one).1]
      rw [Exec.bind_of_ok (Exec.lift_ok _ _), Exec.bind_of_ok (isLeaf_inner inner),
        if_neg Bool.false_ne_true]
      rfl
  | node16 nd => cases first
  | node48 nd => cases first
  | node256 nd => cases first

omit [Header H] [HeaderSpec H] in
/-- **A node with one child**, in the place of the child. -/
theorem newOneWay_spec {s : St H K V n} {p c : Addr} {body : Body H V}
    (cell : s.mem.get c = some ⟨some p, body⟩) (calm : s.mem.failAt = none) (b : Byte) (h : H) :
    ∃ mem', newOneWay c b h s = .ok s.mem.next (s.withMem mem') ∧
      mem'.get s.mem.next = some ⟨some p, .inner h (.oneWay b c)⟩ ∧
      mem'.get c = some ⟨some s.mem.next, body⟩ ∧ mem'.next = s.mem.next + 1 ∧
      mem'.failAt = none ∧ ∀ x, x ≠ c → x < s.mem.next → mem'.get x = s.mem.get x := by
  let mem₁ := s.mem.alloc ⟨some p, .inner h (.oneWay b c)⟩
  have here : mem₁.get c = some ⟨some p, body⟩ := Memory.alloc_get_of_get cell _
  have other : s.mem.next ≠ c := (Memory.lt_next_of_get cell).ne'
  refine ⟨mem₁.set c ⟨some s.mem.next, body⟩, ?_, ?_, Memory.set_get_self here _, rfl, calm, ?_⟩
  · unfold newOneWay
    rw [Exec.bind_of_ok (parentOf_ok cell), Exec.bind_of_ok (new_ok _ calm),
      Exec.bind_of_ok (setParent_ok (s := s.withMem mem₁) here _)]
    rfl
  · exact (Memory.set_get_of_ne _ _ other).trans (Memory.alloc_get_next _ _)
  · intro x notChild older
    exact (Memory.set_get_of_ne _ _ notChild).trans (Memory.alloc_get_of_ne _ _ older.ne)

/-! ### Nodes with one child -/

/-- **A node whose only child is on the path of `k`.** -/
theorem PathNode.through {mem : Memory (Cell H V)} {p a c : Addr} {d : ℕ} {h : H} {l : Layout}
    (cell : mem.get a = some ⟨some p, .inner h l⟩) (wf : l.WF) (bound : branch h < n)
    (describes : Describes h d k)
    (children : ∀ b, l.child b = if b = k.letter (branch h) then some c else none)
    (shared : ∀ v ∈ dom (under M k d), Word.Agree (branch h + 1) k v) :
    PathNode tr mem k M p a d h l fun _ => ∅ where
  cell := cell
  wf := wf
  bound := bound
  shared v member := (shared v member).mono (Nat.le_succ _)
  describes := describes
  bare b other _ := by
    refine ⟨eq_empty_iff.mpr (Set.eq_empty_of_forall_notMem fun v inside => other ?_), rfl⟩
    obtain ⟨letter, member⟩ := mem_dom_fiber.mp inside
    exact letter.symm.trans (Word.agree_succ.mp (shared v member)).2.symm
  kid b other c' child := by
    rw [children, if_neg other] at child
    cases child
  hole := rfl
  apart _ := Set.notMem_empty a
  disjoint _ _ _ := Set.disjoint_empty _

/-- The subtrees of a node with one child. -/
def onlySub (b₁ : Byte) (rest : Set Addr) : Byte → Set Addr := fun b => if b = b₁ then rest else ∅

omit [Header H] [HeaderSpec H] in
theorem around_onlySub (a : Addr) (b₁ : Byte) (rest : Set Addr) :
    around a (onlySub b₁ rest) = insert a rest := by
  ext x
  simp [around, onlySub]

/-- **A node whose only child is beside the path of `k`.** -/
theorem PathNode.aside {mem : Memory (Cell H V)} {p a c : Addr} {d : ℕ} {h : H} {l : Layout}
    {b₁ : Byte} {rest : Set Addr} (cell : mem.get a = some ⟨some p, .inner h l⟩) (wf : l.WF)
    (bound : branch h < n) (describes : Describes h d k)
    (children : ∀ b, l.child b = if b = b₁ then some c else none)
    (other : b₁ ≠ k.letter (branch h))
    (shared : ∀ v ∈ dom (under M k d), Word.Agree (branch h) k v ∧ v.letter (branch h) = b₁)
    (rep : Rep tr mem a c (branch h + 1) (under M k d) rest) (off : a ∉ rest) :
    PathNode tr mem k M p a d h l (onlySub b₁ rest) where
  cell := cell
  wf := wf
  bound := bound
  shared v member := (shared v member).1
  describes := describes
  bare b _ none := by
    have differ : b ≠ b₁ := by
      rintro rfl
      rw [children, if_pos rfl] at none
      cases none
    refine ⟨eq_empty_iff.mpr (Set.eq_empty_of_forall_notMem fun v inside => differ ?_), if_neg differ⟩
    obtain ⟨letter, member⟩ := mem_dom_fiber.mp inside
    exact letter.symm.trans (shared v member).2
  kid b _ c' child := by
    rw [children] at child
    split_ifs at child with same
    obtain rfl : c = c' := Option.some.inj child
    subst same
    have whole : fiber (under M k d) (branch h) b = under M k d := by
      funext v
      by_cases letter : v.letter (branch h) = b
      · exact fiber_of_letter letter
      · rw [fiber, if_neg letter]
        by_contra present
        exact letter (shared v (Ne.symm present)).2
    rw [whole, onlySub, if_pos rfl]
    exact rep
  hole := if_neg other.symm
  apart b := by
    unfold onlySub
    split_ifs
    · exact off
    · exact Set.notMem_empty a
  disjoint b b' differ := by
    unfold onlySub
    by_cases same : b = b₁
    · have other' : b' ≠ b₁ := fun same' => differ (same.trans same'.symm)
      rw [if_neg other']
      exact Set.disjoint_empty _
    · rw [if_neg same]
      exact Set.empty_disjoint _

/-- **A node with one child takes the slot of the child.** -/
theorem raise_spec {s : St H K V n} {p c e : Addr} {d : ℕ} {own : Set Addr} {body : Body H V}
    {key : Key n} (ctx : Ctx tr s.mem s.tree.dummyNode e s.tree.root k M (dom M) p c d own)
    (cell : s.mem.get c = some ⟨some p, body⟩) (off : c ∉ own) (calm : s.mem.failAt = none)
    (agree : Word.Agree d k key) (b : Byte) (h : H) :
    ∃ s', (∀ {α : Type} (rest : Addr → Run H K V n α), (do
        let node ← newOneWay c b h
        let parent ← deref (← parentOf node)
        updateChildPtr parent node key
        rest node : Run H K V n α) s = rest s.mem.next s') ∧
      Ctx tr s'.mem s'.tree.dummyNode e s'.tree.root k M (insert k (dom M)) p s.mem.next d own ∧
      s'.mem.get s.mem.next = some ⟨some p, .inner h (.oneWay b c)⟩ ∧
      s'.mem.get c = some ⟨some s.mem.next, body⟩ ∧ s.Frame s' (own ∪ {c}) ∧
      s'.mem.next = s.mem.next + 1 := by
  obtain ⟨mem₁, run, cellG, cellC, next₁, calm₁, kept₁⟩ := newOneWay_spec cell calm b h
  have older : ∀ x ∈ own, x < s.mem.next := fun x inside => ctx.lt_next inside
  have ctx₁ : Ctx tr mem₁ s.tree.dummyNode e s.tree.root k M (insert k (dom M)) p c d own :=
    (ctx.frame fun x inside => kept₁ x (fun same => off (same ▸ inside)) (older x inside)).anticipate
  obtain ⟨s', redirected, ctx', frame, next⟩ :=
    updateChildPtr_spec (s := s.withMem mem₁) ctx₁ agree s.mem.next
  have kept : ∀ x, x ∉ own → x < s.mem.next + 1 → s'.mem.get x = mem₁.get x := fun x outside lt =>
    frame.keeps.get x (fun inside => outside (ctx₁.links_subset inside)) (lt.trans_eq next₁.symm)
  have fresh : s.mem.next ∉ own := fun inside => absurd (older _ inside) (lt_irrefl _)
  have first : s.Frame (s.withMem mem₁) (own ∪ {c}) :=
    ⟨⟨next₁ ▸ Nat.le_succ _, calm₁.trans calm.symm, fun x outside lt =>
      kept₁ x (fun same => outside (Or.inr same)) lt⟩, rfl, rfl, rfl⟩
  refine ⟨s', fun rest => ?_, ctx', (kept _ fresh (Nat.lt_succ_self _)).trans cellG,
    (kept c off ((Memory.lt_next_of_get cell).trans (Nat.lt_succ_self _))).trans cellC,
    first.trans (frame.mono ctx₁.links_subset) fun x inside => .inl (Or.inl inside), next.trans next₁⟩
  · rw [Exec.bind_of_ok run]
    refine (Exec.bind_of_ok (parentOf_ok (s := s.withMem mem₁) cellG) _).trans ?_
    exact Exec.bind_of_ok redirected _

end CppArt
