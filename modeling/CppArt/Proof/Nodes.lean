/-
**The member functions of a node, executed.**

One equation for each primitive: what it returns and which memory it leaves, given the cell it looks
at. `Layout.find_ok` and its companions turn the functions of an inner node into statements about the
partial map `Layout.child`, so that no later proof looks inside a layout.
-/

import CppArt.Model.Tree
import CppArt.Proof.Layout

namespace CppArt

variable {H K V : Type} {n : ℕ}

/-- The state with another memory. -/
def St.withMem (s : St H K V n) (mem : Memory (Cell H V)) : St H K V n := { s with mem := mem }

@[simp] theorem St.withMem_mem (s : St H K V n) (mem : Memory (Cell H V)) :
    (s.withMem mem).mem = mem := rfl

@[simp] theorem St.withMem_tree (s : St H K V n) (mem : Memory (Cell H V)) :
    (s.withMem mem).tree = s.tree := rfl

@[simp] theorem St.withMem_withMem (s : St H K V n) (mem mem' : Memory (Cell H V)) :
    (s.withMem mem).withMem mem' = s.withMem mem' := rfl

@[simp] theorem St.withMem_self (s : St H K V n) : s.withMem s.mem = s := rfl

section Primitives

variable {s : St H K V n} {a : Addr} {cell : Cell H V}

theorem load_ok (here : s.mem.get a = some cell) : load a s = .ok cell s := by
  unfold load
  rw [here]

@[simp] theorem deref_some (a : Addr) : (deref (some a) : Run H K V n Addr) = pure a := rfl

@[simp] theorem deref_none : (deref none : Run H K V n Addr) = throw .nullPointer := rfl

@[simp] theorem store_apply (a : Addr) (cell : Cell H V) (s : St H K V n) :
    store a cell s = .ok ⟨⟩ (s.withMem (s.mem.set a cell)) := rfl

@[simp] theorem this_apply (s : St H K V n) : this s = .ok s.tree s := rfl

theorem new_granted (cell : Cell H V) (granted : s.mem.failAt ≠ some s.mem.next) :
    new cell s = .ok s.mem.next (s.withMem (s.mem.alloc cell)) := by
  unfold new
  rw [if_neg granted]
  rfl

theorem new_ok (cell : Cell H V) (calm : s.mem.failAt = none) :
    new cell s = .ok s.mem.next (s.withMem (s.mem.alloc cell)) :=
  new_granted cell (by simp [calm])

theorem delete_ok (here : s.mem.get a = some cell) :
    delete a s = .ok ⟨⟩ (s.withMem (s.mem.free a)) := by
  unfold delete
  rw [Exec.bind_of_ok (load_ok here)]
  rfl

theorem onThrow_ok {α : Type} {body : Run H K V n α} {cleanup : Run H K V n Unit} {x : α}
    {s' : St H K V n} (run : body s = .ok x s') : onThrow body cleanup s = .ok x s' := by
  unfold onThrow
  rw [run]

/-- What a handler catches has not returned. -/
theorem onThrow_eq_ok {α : Type} {body : Run H K V n α} {cleanup : Run H K V n Unit} {x : α}
    {s' : St H K V n} (run : onThrow body cleanup s = .ok x s') : body s = .ok x s' := by
  unfold onThrow at run
  split at run
  · rename_i thrown _
    obtain ⟨_, t, -, raised⟩ := Exec.bind_eq_ok.mp run
    cases raised
  · exact run

theorem parentOf_ok (here : s.mem.get a = some cell) : parentOf a s = .ok cell.parent s := by
  unfold parentOf
  rw [Exec.bind_of_ok (load_ok here)]
  rfl

theorem setParent_ok (here : s.mem.get a = some cell) (parent : Option Addr) :
    setParent a parent s = .ok ⟨⟩ (s.withMem (s.mem.set a ⟨parent, cell.body⟩)) := by
  unfold setParent
  rw [Exec.bind_of_ok (load_ok here)]
  rfl

theorem leafValue_ok {p : Option Addr} {v : V} (here : s.mem.get a = some ⟨p, .leaf v⟩) :
    leafValue a s = .ok v s := by
  unfold leafValue
  rw [Exec.bind_of_ok (load_ok here)]
  rfl

theorem headerOf_ok {p : Option Addr} {h : H} {l : Layout}
    (here : s.mem.get a = some ⟨p, .inner h l⟩) : headerOf a s = .ok h s := by
  unfold headerOf
  rw [Exec.bind_of_ok (load_ok here)]
  rfl

theorem setHeader_ok {p : Option Addr} {h : H} {l : Layout}
    (here : s.mem.get a = some ⟨p, .inner h l⟩) (header : H) :
    setHeader a header s = .ok ⟨⟩ (s.withMem (s.mem.set a ⟨p, .inner header l⟩)) := by
  unfold setHeader
  rw [Exec.bind_of_ok (load_ok here)]
  rfl

theorem chunkAt_ok (key : Key n) {i : ℕ} (lt : i < n) (s : St H K V n) :
    chunkAt key (i : ℤ) s = .ok (key.letter i) s := by
  unfold chunkAt
  rw [if_pos ⟨Int.natCast_nonneg i, by exact_mod_cast lt⟩]
  rfl

theorem isLeaf_leaf {p : Option Addr} {v : V} (here : s.mem.get a = some ⟨p, .leaf v⟩) :
    isLeaf a s = .ok true s := by
  unfold isLeaf
  rw [Exec.bind_of_ok (load_ok here)]
  rfl

theorem isLeaf_inner {p : Option Addr} {h : H} {l : Layout}
    (here : s.mem.get a = some ⟨p, .inner h l⟩) : isLeaf a s = .ok false s := by
  unfold isLeaf
  rw [Exec.bind_of_ok (load_ok here)]
  rfl

theorem getType_leaf {p : Option Addr} {v : V} (here : s.mem.get a = some ⟨p, .leaf v⟩) :
    getType a s = .ok .leaf s := by
  unfold getType
  rw [Exec.bind_of_ok (load_ok here)]
  rfl

theorem getType_inner {p : Option Addr} {h : H} {l : Layout}
    (here : s.mem.get a = some ⟨p, .inner h l⟩) : getType a s = .ok l.getType s := by
  unfold getType
  rw [Exec.bind_of_ok (load_ok here)]
  rfl

theorem getType_dummy {p root : Option Addr} {leaf : Addr}
    (here : s.mem.get a = some ⟨p, .dummy root leaf⟩) : getType a s = .ok .dummyNode s := by
  unfold getType
  rw [Exec.bind_of_ok (load_ok here)]
  rfl

theorem sizeOf_inner {p : Option Addr} {h : H} {l : Layout}
    (here : s.mem.get a = some ⟨p, .inner h l⟩) : sizeOf a s = .ok l.count s := by
  unfold sizeOf
  rw [Exec.bind_of_ok (load_ok here)]
  rfl

theorem sizeOf_leaf {p : Option Addr} {v : V} (here : s.mem.get a = some ⟨p, .leaf v⟩) :
    sizeOf a s = .ok 1 s := by
  unfold sizeOf
  rw [Exec.bind_of_ok (load_ok here)]
  rfl

theorem sizeOf_dummy {p root : Option Addr} {leaf : Addr}
    (here : s.mem.get a = some ⟨p, .dummy root leaf⟩) : sizeOf a s = .ok 1 s := by
  unfold sizeOf
  rw [Exec.bind_of_ok (load_ok here)]
  rfl

theorem minSizeOf_inner {p : Option Addr} {h : H} {l : Layout}
    (here : s.mem.get a = some ⟨p, .inner h l⟩) : minSizeOf a s = .ok l.minSize s := by
  unfold minSizeOf
  rw [Exec.bind_of_ok (load_ok here)]
  rfl

theorem minSizeOf_leaf {p : Option Addr} {v : V} (here : s.mem.get a = some ⟨p, .leaf v⟩) :
    minSizeOf a s = .ok 1 s := by
  unfold minSizeOf
  rw [Exec.bind_of_ok (load_ok here)]
  rfl

theorem maxSizeOf_inner {p : Option Addr} {h : H} {l : Layout}
    (here : s.mem.get a = some ⟨p, .inner h l⟩) : maxSizeOf a s = .ok l.maxSize s := by
  unfold maxSizeOf
  rw [Exec.bind_of_ok (load_ok here)]
  rfl

end Primitives

/-! ### Calls that return -/

theorem load_eq_ok {a : Addr} {s s' : St H K V n} {cell : Cell H V} (run : load a s = .ok cell s') :
    s.mem.get a = some cell ∧ s' = s := by
  unfold load at run
  split at run
  · rename_i here
    cases run
    exact ⟨here, rfl⟩
  · cases run

theorem deref_eq_ok {p : Option Addr} {s s' : St H K V n} {a : Addr} (run : deref p s = .ok a s') :
    p = some a ∧ s' = s := by
  cases p with
  | none => cases run
  | some b =>
      cases run
      exact ⟨rfl, rfl⟩

theorem lift_eq_ok {α : Type} {x : Except Fault α} {s s' : St H K V n} {a : α}
    (run : (Exec.lift x : Run H K V n α) s = .ok a s') : x = .ok a ∧ s' = s := by
  cases x with
  | error fault => cases run
  | ok b =>
      cases run
      exact ⟨rfl, rfl⟩

/-- A query that changes nothing. -/
theorem getType_eq_ok {a : Addr} {s s' : St H K V n} {type : NodeType}
    (run : getType a s = .ok type s') : s' = s := by
  obtain ⟨⟨p, body⟩, t, loaded, rest⟩ := Exec.bind_eq_ok.mp run
  obtain ⟨-, rfl⟩ := load_eq_ok loaded
  cases body <;> cases rest <;> rfl

theorem chunkAt_eq_ok {key : Key n} {i : ℕ} {b : Byte} {s s' : St H K V n}
    (run : chunkAt key (i : ℤ) s = .ok b s') : s' = s ∧ b = key.letter i := by
  unfold chunkAt at run
  split at run
  · cases run
    exact ⟨rfl, by rw [Int.toNat_natCast]⟩
  · cases run

theorem leafValue_eq_ok {a : Addr} {s s' : St H K V n} {v : V} (run : leafValue a s = .ok v s') :
    s' = s ∧ ∃ p, s.mem.get a = some ⟨p, .leaf v⟩ := by
  obtain ⟨⟨p, body⟩, t, loaded, rest⟩ := Exec.bind_eq_ok.mp run
  obtain ⟨here, rfl⟩ := load_eq_ok loaded
  cases body <;> cases rest
  exact ⟨rfl, _, here⟩

theorem findChild_eq_ok {a c : Addr} {b : Byte} {s s' : St H K V n}
    (run : findChild a b s = .ok (some c) s') :
    s' = s ∧ ∃ p h l, s.mem.get a = some ⟨p, .inner h l⟩ ∧ l.find b = .ok (some c) := by
  obtain ⟨⟨p, body⟩, t, loaded, rest⟩ := Exec.bind_eq_ok.mp run
  obtain ⟨here, rfl⟩ := load_eq_ok loaded
  cases body with
  | inner h l =>
      obtain ⟨found, rfl⟩ := lift_eq_ok rest
      exact ⟨rfl, p, h, l, here, found⟩
  | leaf v => cases rest
  | baseLeaf => cases rest
  | dummy root leaf => cases rest

theorem headerOf_eq_ok {a : Addr} {s s' : St H K V n} {h : H} (run : headerOf a s = .ok h s') :
    s' = s ∧ ∃ p l, s.mem.get a = some ⟨p, .inner h l⟩ := by
  obtain ⟨⟨p, body⟩, t, loaded, rest⟩ := Exec.bind_eq_ok.mp run
  obtain ⟨here, rfl⟩ := load_eq_ok loaded
  cases body <;> cases rest
  exact ⟨rfl, _, _, here⟩

/-! ### The functions of an inner node -/

section Inner

variable {s : St H K V n} {a : Addr} {p : Option Addr} {h : H} {l : Layout}

theorem layout_getType_ne (l : Layout) : l.getType ≠ .leaf ∧ l.getType ≠ .dummyNode := by
  cases l <;> exact ⟨NodeType.noConfusion, NodeType.noConfusion⟩

theorem findChild_ok (here : s.mem.get a = some ⟨p, .inner h l⟩) (wf : l.WF) (b : Byte) :
    findChild a b s = .ok (l.child b) s := by
  unfold findChild
  rw [Exec.bind_of_ok (load_ok here)]
  simp only [Layout.find_ok wf, Exec.lift_ok]

theorem insertChild_ok (here : s.mem.get a = some ⟨p, .inner h l⟩) {l' : Layout} {b : Byte}
    {node : Addr} (run : l.insert b node = .ok l') :
    insertChild a b node s = .ok ⟨⟩ (s.withMem (s.mem.set a ⟨p, .inner h l'⟩)) := by
  unfold insertChild
  rw [Exec.bind_of_ok (load_ok here)]
  simp only [run]
  rfl

theorem eraseChild_ok (here : s.mem.get a = some ⟨p, .inner h l⟩) {l' : Layout} {b : Byte}
    {child : Addr} (run : l.erase b = .ok (some child, l')) {cell : Cell H V}
    (live : s.mem.get child = some cell) :
    eraseChild a b s = .ok ⟨⟩ (s.withMem ((s.mem.free child).set a ⟨p, .inner h l'⟩)) := by
  unfold eraseChild
  rw [Exec.bind_of_ok (load_ok here)]
  simp only [run]
  rw [Exec.bind_of_ok (Exec.lift_ok _ _)]
  simp only []
  rw [Exec.bind_of_ok (delete_ok live)]
  rfl

theorem replaceChild_inner (here : s.mem.get a = some ⟨p, .inner h l⟩) {l' : Layout} {b : Byte}
    {node : Addr} (run : l.updateChildPtr b node = .ok l') :
    replaceChild a b node s = .ok ⟨⟩ (s.withMem (s.mem.set a ⟨p, .inner h l'⟩)) := by
  unfold replaceChild
  rw [Exec.bind_of_ok (load_ok here)]
  simp only [run]
  rfl

end Inner

/-! ### The two pointers to the root -/

/-- The state with another root. -/
def St.withRoot (s : St H K V n) (root : Option Addr) : St H K V n :=
  { s with tree := { s.tree with root := root } }

/-- The state with another number of elements. -/
def St.withCount (s : St H K V n) (count : ℕ) : St H K V n :=
  { s with tree := { s.tree with count := count } }

section Root

variable {s : St H K V n}

@[simp] theorem St.withRoot_mem (s : St H K V n) (root : Option Addr) :
    (s.withRoot root).mem = s.mem := rfl

@[simp] theorem St.withRoot_root (s : St H K V n) (root : Option Addr) :
    (s.withRoot root).tree.root = root := rfl

@[simp] theorem St.withCount_mem (s : St H K V n) (count : ℕ) : (s.withCount count).mem = s.mem := rfl

@[simp] theorem St.withCount_count (s : St H K V n) (count : ℕ) :
    (s.withCount count).tree.count = count := rfl

@[simp] theorem setRoot_apply (root : Option Addr) (s : St H K V n) :
    setRoot root s = .ok ⟨⟩ (s.withRoot root) := rfl

@[simp] theorem updateCount_apply (count : ℕ → ℕ) (s : St H K V n) :
    updateCount count s = .ok ⟨⟩ (s.withCount (count s.tree.count)) := rfl

theorem linkDummy_ok {p root : Option Addr} {leaf : Addr}
    (here : s.mem.get s.tree.dummyNode = some ⟨p, .dummy root leaf⟩) :
    linkDummy s = .ok ⟨⟩
      (s.withMem (s.mem.set s.tree.dummyNode ⟨p, .dummy s.tree.root leaf⟩)) := by
  unfold linkDummy
  rw [Exec.bind_of_ok (this_apply s), Exec.bind_of_ok (load_ok here)]
  rfl

theorem replaceRoot_ok {p root : Option Addr} {leaf : Addr} (node : Addr)
    (here : s.mem.get s.tree.dummyNode = some ⟨p, .dummy root leaf⟩) :
    replaceRoot node s = .ok ⟨⟩
      ((s.withRoot (some node)).withMem
        (s.mem.set s.tree.dummyNode ⟨p, .dummy (some node) leaf⟩)) := by
  unfold replaceRoot
  rw [Exec.bind_of_ok (setRoot_apply (some node) s), 
    linkDummy_ok (s := s.withRoot (some node)) here]
  rfl

end Root

/-! ### Frames -/

/-- What an operation leaves as it was: the memory outside of what it owns, the sentinel, the
transformer and the number of elements. -/
structure St.Frame (s s' : St H K V n) (own : Set Addr) : Prop where
  keeps : Memory.Keeps s.mem s'.mem own
  keyTransform : s'.tree.keyTransform = s.tree.keyTransform
  count : s'.tree.count = s.tree.count
  dummyNode : s'.tree.dummyNode = s.tree.dummyNode

theorem St.Frame.refl (s : St H K V n) (own : Set Addr) : s.Frame s own :=
  ⟨Memory.Keeps.refl _ _, rfl, rfl, rfl⟩

theorem St.Frame.mono {s s' : St H K V n} {own own' : Set Addr} (frame : s.Frame s' own)
    (sub : own ⊆ own') : s.Frame s' own' :=
  ⟨frame.keeps.mono sub, frame.keyTransform, frame.count, frame.dummyNode⟩

theorem St.Frame.trans {s s' s'' : St H K V n} {own own' : Set Addr} (one : s.Frame s' own)
    (two : s'.Frame s'' own') (sub : ∀ a ∈ own', a ∈ own ∨ s.mem.next ≤ a) : s.Frame s'' own :=
  ⟨one.keeps.trans two.keeps sub, two.keyTransform.trans one.keyTransform,
    two.count.trans one.count, two.dummyNode.trans one.dummyNode⟩

end CppArt
