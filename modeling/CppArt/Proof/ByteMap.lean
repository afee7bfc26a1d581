/-
**The four layouts are one ordered byte map.**

Whatever sequence of insertions, erasures and child updates a node goes through, with the four layouts
taking turns, it stands for the same partial map as a reference map that is updated next to it. The
layouts' own specifications say this for one call; the invariant here (`Embodies`) adds that the children
are objects of their own, which is what a change of layout needs in order to set their parents.

* `Embodies.insert`, `Embodies.erase`, `Embodies.update`: one call;
* `NodeRun.embodies`: every run;
* `layouts_agree`: what a node answers after every run, and that the next call returns.
-/

import CppArt.Model.ArTree
import CppArt.Model.ByteMap
import CppArt.Proof.Restructure

namespace CppArt

variable {H K V : Type} {n : ℕ}

/-! ### One call -/

section Calls

variable {s s' : St H K V n} {a a' : Addr} {m : Byte → Option Addr} {p : Option Addr} {h : H}
  {l : Layout} {b : Byte} {c : Addr}

/-- **The node at an address embodies a map** from bytes to children. -/
structure Embodies (s : St H K V n) (a : Addr) (m : Byte → Option Addr) (p : Option Addr) (h : H)
    (l : Layout) : Prop where
  cell : s.mem.get a = some ⟨p, .inner h l⟩
  wf : l.WF
  child : ∀ b, l.child b = m b
  live : ∀ b c, m b = some c → Attachable s a c

/-- **A change of layout** keeps the map and sets the parent of every child, which is otherwise as
before. -/
structure Moved (s s' : St H K V n) (a' : Addr) (m : Byte → Option Addr) : Prop where
  find : ∀ b, findChild a' b s' = .ok (m b) s'
  repointed : ∀ b c cell, m b = some c → s.mem.get c = some cell →
    s'.mem.get c = some ⟨some a', cell.body⟩

theorem Embodies.children_live (node : Embodies s a m p h l) (b : Byte) (c : Addr)
    (child : l.child b = some c) : c ≠ a ∧ ∃ cell, s.mem.get c = some cell :=
  node.live b c ((node.child b).symm.trans child)

/-- The node in another layout. -/
theorem Embodies.relaid {l' : Layout} {mem' : Memory (Cell H V)} (node : Embodies s a m p h l)
    (relaid : Relaid s.mem mem' a p h l') (wf : l'.WF) (children : ∀ b, l'.child b = l.child b) :
    Embodies (s.withMem mem') s.mem.next m p h l' ∧ Moved s (s.withMem mem') s.mem.next m := by
  have child : ∀ b, l'.child b = m b := fun b => (children b).trans (node.child b)
  have kid : ∀ b c cell, m b = some c → s.mem.get c = some cell →
      mem'.get c = some ⟨some s.mem.next, cell.body⟩ :=
    fun b c cell entry here => relaid.kid b c cell ((child b).trans entry) here
  refine ⟨⟨relaid.cell, wf, child, fun b c entry => ?_⟩, fun b => ?_, kid⟩
  · obtain ⟨-, cell, here⟩ := node.live b c entry
    exact ⟨(Memory.lt_next_of_get here).ne, _, kid b c cell entry here⟩
  · rw [findChild_ok (s := s.withMem mem') relaid.cell wf b, child b]

/-- The node with other arrays. -/
theorem Embodies.written (node : Embodies s a m p h l) {l' : Layout} (wf : l'.WF)
    {m' : Byte → Option Addr} (child : ∀ b, l'.child b = m' b)
    (live : ∀ b c, m' b = some c → Attachable s a c) :
    Embodies (s.withMem (s.mem.set a ⟨p, .inner h l'⟩)) a m' p h l' := by
  refine ⟨Memory.set_get_self node.cell _, wf, child, fun b c entry => ?_⟩
  obtain ⟨notA, cell, here⟩ := live b c entry
  exact ⟨notA, cell, (Memory.set_get_of_ne _ _ notA).trans here⟩

/-- The children of a map with one entry changed. -/
theorem live_update (live : ∀ b c, m b = some c → Attachable s a c) (fresh : Attachable s a c)
    (b' : Byte) (c' : Addr) (entry : Function.update m b (some c) b' = some c') : Attachable s a c' := by
  rw [Function.update_apply] at entry
  split_ifs at entry
  · cases entry
    exact fresh
  · exact live b' c' entry

/-- The insertion of a child into a node with room. -/
theorem Embodies.insertChild (node : Embodies s a m p h l) (room : l.Fits (l.count + 1))
    (absent : m b = none) (fresh : Attachable s a c) :
    ∃ l', insertChild a b c s = .ok ⟨⟩ (s.withMem (s.mem.set a ⟨p, .inner h l'⟩)) ∧
      Embodies (s.withMem (s.mem.set a ⟨p, .inner h l'⟩)) a (Function.update m b (some c)) p h l' ∧
      l'.Fits l'.count := by
  obtain ⟨l', run, wf, type, count, children⟩ := Layout.insert_spec node.wf c
    (Nat.lt_of_succ_le room.2.1) ((node.child b).trans absent)
  refine ⟨l', insertChild_ok node.cell run,
    node.written wf (fun b' => ?_) (live_update node.live fresh), count ▸ room.of_getType type⟩
  rw [children, node.child, Function.update_apply]

/-- **An insertion**, of an absent byte. A full node grows first. -/
theorem Embodies.insert (node : Embodies s a m p h l) (fits : l.Fits l.count) (absent : m b = none)
    (fresh : Attachable s a c) (granted : s.mem.failAt ≠ some s.mem.next) :
    ∃ a' s' l', insertGrowing a b c s = .ok a' s' ∧
      Embodies s' a' (Function.update m b (some c)) p h l' ∧ l'.Fits l'.count ∧
      ((l.count < l.maxSize ∧ a' = a) ∨
        (l.count = l.maxSize ∧ ∃ s₁, grow a s = .ok a' s₁ ∧ Moved s s₁ a' m)) := by
  unfold insertGrowing
  rw [Exec.bind_of_ok (sizeOf_inner node.cell), Exec.bind_of_ok (maxSizeOf_inner node.cell)]
  by_cases full : l.count = l.maxSize
  · have notLast := Layout.count_lt_of_absent node.wf ((node.child b).trans absent)
    obtain ⟨l₁, mem₁, run, relaid, wf, -, room, children⟩ :=
      grow_run node.cell node.wf full notLast granted node.children_live
    obtain ⟨node₁, moved⟩ := node.relaid relaid wf children
    -- the new child is as it was, or was a child already
    have fresh₁ : Attachable (s.withMem mem₁) s.mem.next c := by
      obtain ⟨notA, cell, here⟩ := fresh
      have older := Memory.lt_next_of_get here
      refine ⟨older.ne, ?_⟩
      by_cases listed : ∃ b, l₁.child b = some c
      · obtain ⟨b', child⟩ := listed
        exact ⟨_, relaid.kid b' c cell child here⟩
      · exact ⟨cell, (relaid.get c notA older fun b' child => listed ⟨b', child⟩).trans here⟩
    obtain ⟨l', run', node', fits'⟩ := node₁.insertChild room absent fresh₁
    rw [if_pos full, Exec.bind_of_ok run]
    exact ⟨s.mem.next, _, l', Exec.bind_of_ok run' _, node', fits', .inr ⟨full, _, run, moved⟩⟩
  · have below : l.count < l.maxSize := lt_of_le_of_ne fits.2.1 full
    have room : l.Fits (l.count + 1) := by
      obtain ⟨-, -, ge⟩ := fits
      exact ⟨Nat.succ_pos _, Nat.succ_le_of_lt below, fun notFirst => Nat.le_succ_of_le (ge notFirst)⟩
    obtain ⟨l', run, node', fits'⟩ := node.insertChild room absent fresh
    rw [if_neg full]
    exact ⟨a, _, l', Exec.bind_of_ok run _, node', fits', .inl ⟨below, rfl⟩⟩

/-- **An erasure**, of a present byte. A node of one of the larger types shrinks when it is left with too
few children. -/
theorem Embodies.erase (node : Embodies s a m p h l) (fits : l.Fits l.count) (present : m b = some c)
    (own : ∀ b', m b' = some c → b' = b) (rest : ∃ b', b' ≠ b ∧ m b' ≠ none)
    (granted : s.mem.failAt ≠ some s.mem.next) :
    ∃ s₁ l₁ a' s' l', eraseChild a b s = .ok ⟨⟩ s₁ ∧ s₁.mem.get c = none ∧
      s₁.mem.get a = some ⟨p, .inner h l₁⟩ ∧ eraseShrinking a b s = .ok a' s' ∧
      Embodies s' a' (Function.update m b none) p h l' ∧ l'.Fits l'.count ∧
      ((¬ (l₁.count < l₁.minSize ∧ l₁.getType ≠ .node4) ∧ a' = a ∧ s' = s₁) ∨
        ((l₁.count < l₁.minSize ∧ l₁.getType ≠ .node4) ∧ shrink a s₁ = .ok (a', true) s' ∧
          Moved s₁ s' a' (Function.update m b none))) := by
  obtain ⟨l₁, run, wf, type, count, children⟩ :=
    Layout.erase_spec node.wf ((node.child b).trans present)
  obtain ⟨notA, cell, here⟩ := node.live b c present
  have left : (s.mem.free c).get a = some ⟨p, .inner h l⟩ :=
    (Memory.free_get_of_ne _ notA.symm).trans node.cell
  let s₁ := s.withMem ((s.mem.free c).set a ⟨p, .inner h l₁⟩)
  have erased : eraseChild a b s = .ok ⟨⟩ s₁ := eraseChild_ok node.cell run here
  have gone : s₁.mem.get c = none :=
    (Memory.set_get_of_ne _ _ notA).trans (Memory.free_get_self s.mem c)
  have child : ∀ b', l₁.child b' = Function.update m b none b' := fun b' => by
    rw [children, node.child, Function.update_apply]
  have node₁ : Embodies s₁ a (Function.update m b none) p h l₁ := by
    refine ⟨Memory.set_get_self left _, wf, child, fun b' c' entry => ?_⟩
    rw [Function.update_apply] at entry
    split_ifs at entry with same
    obtain ⟨notA', cell', here'⟩ := node.live b' c' entry
    have other : c' ≠ c := fun equal => same (own b' (equal ▸ entry))
    exact ⟨notA', cell', (Memory.set_get_of_ne _ _ notA').trans
      ((Memory.free_get_of_ne _ other).trans here')⟩
  have nonempty : 0 < l₁.count := by
    obtain ⟨b', other, inside⟩ := rest
    obtain ⟨c', entry⟩ := Option.ne_none_iff_exists'.mp inside
    have found : l₁.child b' = some c' := by rw [child, Function.update_apply, if_neg other, entry]
    exact Layout.count_pos_of_child wf found
  obtain ⟨-, le, ge⟩ := fits.of_getType type
  unfold eraseShrinking
  rw [Exec.bind_of_ok erased, Exec.bind_of_ok (sizeOf_inner node₁.cell),
    Exec.bind_of_ok (minSizeOf_inner node₁.cell), Exec.bind_of_ok (getType_inner node₁.cell)]
  by_cases few : l₁.count < l₁.minSize ∧ l₁.getType ≠ .node4
  · have under : l₁.count + 1 = l₁.minSize := by
      have enough := ge few.2
      have tooFew := few.1
      omega
    obtain ⟨l', mem', shrunk, relaid, wf', count', fits', children'⟩ :=
      shrink_run node₁.cell wf under few.2 granted node₁.children_live
    obtain ⟨node', moved⟩ := node₁.relaid relaid wf' children'
    rw [if_pos few]
    exact ⟨s₁, l₁, _, _, l', erased, gone, node₁.cell, Exec.bind_of_ok shrunk _, node', fits',
      .inr ⟨few, shrunk, moved⟩⟩
  · have fits₁ : l₁.Fits l₁.count := by
      refine ⟨nonempty, by omega, fun notFirst => ?_⟩
      by_contra tooFew
      exact few ⟨not_le.mp tooFew, notFirst⟩
    rw [if_neg few]
    exact ⟨s₁, l₁, a, s₁, l₁, erased, gone, node₁.cell, rfl, node₁, fits₁, .inl ⟨few, rfl, rfl⟩⟩

/-- **An update** of the child of a present byte. -/
theorem Embodies.update {c' : Addr} (node : Embodies s a m p h l) (fits : l.Fits l.count)
    (present : m b = some c) (fresh : Attachable s a c') :
    ∃ s' l', replaceChild a b c' s = .ok ⟨⟩ s' ∧ Embodies s' a (Function.update m b (some c')) p h l' ∧
      l'.Fits l'.count := by
  obtain ⟨l', run, wf, type, count, children⟩ :=
    Layout.updateChildPtr_spec node.wf c' ((node.child b).trans present)
  refine ⟨_, l', replaceChild_inner node.cell run,
    node.written wf (fun b' => ?_) (live_update node.live fresh), ?_⟩
  · rw [children, node.child, Function.update_apply]
  · exact count ▸ fits.of_getType type

end Calls

/-! ### Every run -/

/-- **A node embodies the reference map** after every run. -/
theorem NodeRun.embodies {s : St H K V n} {a : Addr} {m : Byte → Option Addr} (run : NodeRun s a m) :
    ∃ p h l, Embodies s a m p h l ∧ l.Fits l.count := by
  induction run with
  | @start s a c p h node4 b cell one key kid fresh =>
      obtain ⟨wf, children⟩ := Layout.singleton_spec one key kid
      refine ⟨p, h, .node4 node4, ⟨cell, wf, fun b' => ?_, ?_⟩, ?_⟩
      · rw [children, Function.update_apply]
      · refine live_update (fun b' c' entry => ?_) fresh
        cases entry
      · exact ⟨one.ge, one.le.trans (by decide : 1 ≤ 4), fun notFirst => absurd rfl notFirst⟩
  | @insert s s' a a' c m b run absent fresh granted inserted ih =>
      obtain ⟨p, h, l, node, fits⟩ := ih
      obtain ⟨a₁, s₁, l', returned, node', fits', -⟩ := node.insert fits absent fresh granted
      cases inserted.symm.trans returned
      exact ⟨p, h, l', node', fits'⟩
  | @erase s s' a a' c m b run present own rest granted erased ih =>
      obtain ⟨p, h, l, node, fits⟩ := ih
      obtain ⟨s₁, -, a₁, s₂, l', -, -, -, returned, node', fits', -⟩ :=
        node.erase fits present own rest granted
      cases erased.symm.trans returned
      exact ⟨p, h, l', node', fits'⟩
  | @update s s' a c c' m b run present fresh updated ih =>
      obtain ⟨p, h, l, node, fits⟩ := ih
      obtain ⟨s₁, l', returned, node', fits'⟩ := node.update fits present fresh
      cases updated.symm.trans returned
      exact ⟨p, h, l', node', fits'⟩
  | @other s s' a m run elsewhere ih =>
      obtain ⟨p, h, l, node, fits⟩ := ih
      obtain ⟨p', h', cell⟩ := elsewhere.node p h l node.cell
      exact ⟨p', h', l, ⟨cell, node.wf, node.child, fun b c entry =>
        ⟨(node.live b c entry).1, elsewhere.live b c entry⟩⟩, fits⟩

/-- **The slots of a `_Node_48`** that stands for a map: its bytes have slot numbers inside the array, which
are distinct and not the marker and name exactly the non-null slots. -/
structure Slots (node48 : Node48) (m : Byte → Option Addr) : Prop where
  marker : ∀ b, m b = none ↔ node48.childIndex.read b = emptyMarker
  inside : ∀ b, m b ≠ none → (node48.childIndex.read b).val < 48
  child : ∀ b, m b ≠ none → node48.children[(node48.childIndex.read b).val]? = some (m b)
  injective : ∀ b b', m b ≠ none → m b' ≠ none → node48.childIndex.read b = node48.childIndex.read b' →
    b = b'
  filled : ∀ i c, node48.children[i]? = some (some c) →
    ∃ b, m b ≠ none ∧ (node48.childIndex.read b).val = i

theorem slots_of_wf {node48 : Node48} {m : Byte → Option Addr} (wf : node48.WF)
    (child : ∀ b, node48.child b = m b) : Slots node48 m := by
  have used : ∀ b, m b ≠ none ↔ node48.used b = true := fun b => by
    rw [← child]
    exact wf.child_ne_none
  refine ⟨fun b => ?_, fun b inside => wf.index_lt ((used b).mp inside), fun b inside => ?_,
    fun b b' inside inside' => wf.injective b b' ((used b).mp inside) ((used b').mp inside'),
    fun i c filled => ?_⟩
  · have unused : m b = none ↔ ¬ node48.used b = true := by rw [← used, not_not]
    rw [unused, Node48.used_iff, not_not]
  · obtain ⟨c, found, slot⟩ := wf.child_of_used ((used b).mp inside)
    rw [slot, ← child, found]
  · obtain ⟨b, inUse, index⟩ := wf.owned i c filled
    exact ⟨b, (used b).mpr inUse, index⟩

/-- **A node implements an ordered byte map**: what its member functions answer, and that the next call
returns. `minimum` and `maximum` go on in the child of the first byte of their direction; `successor` and
`predecessor` in the child of the next byte, or in the parent if there is none. A node grows exactly when
it is full, and one of the larger types shrinks exactly when it has fallen below its `min_size`. -/
structure Implements [Header H] (s : St H K V n) (a : Addr) (m : Byte → Option Addr) : Prop where
  find : ∀ b, findChild a b s = .ok (m b) s
  size : sizeOf a s = .ok (Finset.univ.filter fun b => m b ≠ none).card s
  type : getType a s = .ok (Layout.typeFor (Finset.univ.filter fun b => m b ≠ none).card) s
  extreme : ∀ dir : Dir, ∃ b c, dir.IsFirst {b | m b ≠ none} b ∧ m b = some c ∧
    ∀ calls, extremeFrom dir (calls + 1) a s = extremeFrom dir calls c s
  neighbour : ∀ (dir : Dir) (key : Key n) (p : Option Addr) (h : H) (l : Layout) (calls : ℕ),
    s.mem.get a = some ⟨p, .inner h l⟩ → branch h < n →
    (∃ b c, dir.IsFirst {b | m b ≠ none ∧ dir.before (key.letter (branch h)) b} b ∧ m b = some c ∧
      neighbourFrom dir key (calls + 1) a s = CppArt.extreme dir c s) ∨
    ((∀ b, m b ≠ none → ¬ dir.before (key.letter (branch h)) b) ∧
      neighbourFrom dir key (calls + 1) a s = (deref p >>= neighbourFrom dir key calls) s)
  slots : ∀ p h node48, s.mem.get a = some ⟨p, .inner h (.node48 node48)⟩ → Slots node48 m
  insert : ∀ b c, m b = none → Attachable s a c → s.mem.failAt ≠ some s.mem.next →
    ∃ a' s' size maxSize, insertGrowing a b c s = .ok a' s' ∧ sizeOf a s = .ok size s ∧
      maxSizeOf a s = .ok maxSize s ∧ ((size < maxSize ∧ a' = a) ∨
        (size = maxSize ∧ ∃ s₁, grow a s = .ok a' s₁ ∧ Moved s s₁ a' m))
  erase : ∀ b c, m b = some c → (∀ b', m b' = some c → b' = b) → (∃ b', b' ≠ b ∧ m b' ≠ none) →
    s.mem.failAt ≠ some s.mem.next →
    ∃ s₁ a' s' size minSize type, eraseChild a b s = .ok ⟨⟩ s₁ ∧ s₁.mem.get c = none ∧
      eraseShrinking a b s = .ok a' s' ∧ sizeOf a s₁ = .ok size s₁ ∧ minSizeOf a s₁ = .ok minSize s₁ ∧
      getType a s₁ = .ok type s₁ ∧ ((¬ (size < minSize ∧ type ≠ .node4) ∧ a' = a ∧ s' = s₁) ∨
        ((size < minSize ∧ type ≠ .node4) ∧ shrink a s₁ = .ok (a', true) s' ∧
          Moved s₁ s' a' (Function.update m b none)))
  update : ∀ b c c', m b = some c → Attachable s a c' → ∃ s', replaceChild a b c' s = .ok ⟨⟩ s'

/-- **The four layouts implement one ordered byte map**, in either tree and after every run. -/
theorem layouts_agree [Header H] (s : St H K V n) (a : Addr) (m : Byte → Option Addr)
    (run : NodeRun s a m) : Implements s a m := by
  obtain ⟨p, h, l, node, fits⟩ := run.embodies
  have used : ∀ b, b ∈ l.bytes ↔ m b ≠ none := fun b => by rw [Layout.mem_bytes, node.child]
  have bytes : l.bytes = {b | m b ≠ none} := Set.ext used
  have count : l.count = (Finset.univ.filter fun b => m b ≠ none).card := by
    rw [Layout.count_eq node.wf]
    simp only [node.child]
  refine ⟨fun b => ?_, ?_, ?_, fun dir => ?_, fun dir key p' h' l' calls cell inside => ?_,
    fun p' h' node48 cell => ?_, fun b c absent fresh granted => ?_,
    fun b c present own rest granted => ?_, fun b c c' present fresh => ?_⟩
  · rw [findChild_ok node.cell node.wf, node.child]
  · rw [sizeOf_inner node.cell, count]
  · rw [getType_inner node.cell, fits.getType, count]
  · obtain ⟨b, c, answer, child, first⟩ := Layout.extremeChild_spec node.wf fits.1 dir
    refine ⟨b, c, bytes ▸ first, (node.child b).symm.trans child, fun calls => ?_⟩
    rw [extremeFrom, Exec.bind_of_ok (load_ok node.cell)]
    simp only [answer]
    rfl
  · cases cell.symm.trans node.cell
    have read : chunkAt key (branch h : ℤ) s = .ok (key.letter (branch h)) s := chunkAt_ok key inside s
    rcases Layout.childBeyond_spec node.wf dir (key.letter (branch h)) with
      ⟨answer, none⟩ | ⟨b, c, answer, child, first⟩
    · refine .inr ⟨fun b inside => none b ((used b).mpr inside), ?_⟩
      rw [neighbourFrom, Exec.bind_of_ok (load_ok node.cell)]
      refine (Exec.bind_of_ok read _).trans ?_
      rw [answer]
      rfl
    · rw [bytes] at first
      refine .inl ⟨b, c, first, (node.child b).symm.trans child, ?_⟩
      rw [neighbourFrom, Exec.bind_of_ok (load_ok node.cell)]
      refine (Exec.bind_of_ok read _).trans ?_
      rw [answer]
      rfl
  · cases cell.symm.trans node.cell
    exact slots_of_wf node.wf node.child
  · obtain ⟨a', s', l', returned, -, -, moved⟩ := node.insert fits absent fresh granted
    exact ⟨a', s', _, _, returned, sizeOf_inner node.cell, maxSizeOf_inner node.cell, moved⟩
  · obtain ⟨s₁, l₁, a', s', l', erased, gone, cell₁, returned, -, -, moved⟩ :=
      node.erase fits present own rest granted
    exact ⟨s₁, a', s', _, _, _, erased, gone, returned, sizeOf_inner cell₁, minSizeOf_inner cell₁,
      getType_inner cell₁, moved⟩
  · obtain ⟨s', l', returned, -⟩ := node.update fits present fresh
    exact ⟨s', returned⟩

/-- A new leaf becomes a child, in a memory in which no allocation is set to fail. -/
theorem NodeRun.exists_insert {s : St H K V n} {a : Addr} {m : Byte → Option Addr} (run : NodeRun s a m)
    (v : V) {b : Byte} (absent : m b = none) : ∃ (s₁ s' : St H K V n) (a' c : Addr), NodeRun s₁ a m ∧
      insertGrowing a b c s₁ = .ok a' s' ∧ NodeRun s' a' (Function.update m b (some c)) ∧
      ∀ b', m b' ≠ some c := by
  obtain ⟨p, h, l, node, fits⟩ := run.embodies
  let s₁ := s.withMem (s.mem.disarm.alloc ⟨none, .leaf v⟩)
  have older : ∀ {x cell}, s.mem.get x = some cell → s₁.mem.get x = some cell :=
    fun here => Memory.alloc_get_of_get (m := s.mem.disarm) here _
  have elsewhere : Elsewhere s s₁ a m := by
    refine ⟨fun p h l here => ⟨p, h, older here⟩, fun b c entry => ?_⟩
    obtain ⟨-, cell, here⟩ := node.live b c entry
    exact ⟨cell, older here⟩
  have fresh : Attachable s₁ a s.mem.next :=
    ⟨(Memory.lt_next_of_get node.cell).ne', _, Memory.alloc_get_next s.mem.disarm _⟩
  have granted : s₁.mem.failAt ≠ some s₁.mem.next := nofun
  have run₁ : NodeRun s₁ a m := .other run elsewhere
  obtain ⟨p₁, h₁, l₁, node₁, fits₁⟩ := run₁.embodies
  obtain ⟨a', s', l', returned, -⟩ := node₁.insert fits₁ absent fresh granted
  refine ⟨s₁, s', a', s.mem.next, run₁, returned, .insert run₁ absent fresh granted returned, fun b' entry => ?_⟩
  obtain ⟨-, cell, here⟩ := node.live b' _ entry
  exact absurd (Memory.lt_next_of_get here) (lt_irrefl _)

/-- A `_Node_4` with four children grows to a `_Node_16` when it gets a fifth one, and shrinks when that
one is erased. -/
theorem layouts_agree_five : ∃ (s s₁ s₂ : ArTree.State (Key 1) (Key 1) 1) (a a₁ a₂ c : Addr)
      (m : Byte → Option Addr),
    Implements s a m ∧ getType a s = .ok .node4 s ∧ insertGrowing a 4 c s = .ok a₁ s₁ ∧
    Implements s₁ a₁ (Function.update m 4 (some c)) ∧ getType a₁ s₁ = .ok .node16 s₁ ∧
    eraseShrinking a₁ 4 (s₁.withMem s₁.mem.disarm) = .ok a₂ s₂ ∧ Implements s₂ a₂ m ∧
    getType a₂ s₂ = .ok .node4 s₂ := by
  let s₀ : ArTree.State (Key 1) (Key 1) 1 := ⟨(Memory.blank.alloc ⟨none, .leaf ⟨#v[0]⟩⟩).alloc
    ⟨none, .inner ⟨0⟩ (.oneWay 0 0)⟩, ⟨id, 1, 1, some 1⟩⟩
  have start : NodeRun s₀ 1 (Function.update (fun _ => none) 0 (some 0)) :=
    .start rfl rfl rfl rfl ⟨by decide, _, rfl⟩
  obtain ⟨_, _, _, c₁, -, -, run₁, -⟩ := start.exists_insert ⟨#v[1]⟩ (b := 1) (by simp)
  obtain ⟨_, _, _, c₂, -, -, run₂, -⟩ := run₁.exists_insert ⟨#v[2]⟩ (b := 2) (by simp)
  obtain ⟨_, _, a, c₃, -, -, run₃, -⟩ := run₂.exists_insert ⟨#v[3]⟩ (b := 3) (by simp)
  obtain ⟨s, s₁, a₁, c, run, inserted, run', new⟩ := run₃.exists_insert ⟨#v[4]⟩ (b := 4) (by simp)
  set m : Byte → Option Addr := Function.update (Function.update (Function.update (Function.update
    (fun _ => none) 0 (some 0)) 1 (some c₁)) 2 (some c₂)) 3 (some c₃) with four
  have absent : m 4 = none := by simp [four]
  have bytes : (Finset.univ.filter fun b => m b ≠ none) = {0, 1, 2, 3} := by
    ext b
    simp only [four, Function.update_apply, Finset.mem_filter, Finset.mem_univ, true_and]
    split_ifs <;> simp_all
  have bytes' : (Finset.univ.filter fun b => Function.update m 4 (some c) b ≠ none) = {0, 1, 2, 3, 4} := by
    ext b
    have before : b ∈ Finset.univ.filter (fun b => m b ≠ none) ↔ b ∈ ({0, 1, 2, 3} : Finset Byte) := by
      rw [bytes]
    simp only [Function.update_apply, Finset.mem_filter, Finset.mem_univ, true_and] at before ⊢
    split_ifs <;> simp_all
  -- the fifth child is erased, in a memory in which no allocation is set to fail
  let t := s₁.withMem s₁.mem.disarm
  obtain ⟨p, h, l, node, -⟩ := run'.embodies
  have calm : NodeRun t a₁ (Function.update m 4 (some c)) :=
    .other run' ⟨fun p h l here => ⟨p, h, here⟩, fun b x entry => (node.live b x entry).2⟩
  have present : Function.update m 4 (some c) 4 = some c := Function.update_self ..
  have own : ∀ b, Function.update m 4 (some c) b = some c → b = 4 := fun b entry => by
    by_contra other
    rw [Function.update_of_ne other] at entry
    exact new b entry
  have rest : ∃ b, b ≠ 4 ∧ Function.update m 4 (some c) b ≠ none := ⟨0, by decide, by simp [four]⟩
  obtain ⟨s', a₂, s₂, -, -, -, -, -, erased, -⟩ :=
    (layouts_agree t a₁ _ calm).erase 4 c present own rest nofun
  have last := layouts_agree s₂ a₂ _ (.erase calm present own rest nofun erased)
  have same : Function.update m 4 none = m := Function.update_eq_self_iff.mpr absent.symm
  rw [Function.update_idem, same] at last
  have first := layouts_agree s a m run
  have between := layouts_agree s₁ a₁ _ run'
  have type := first.type
  have type₁ := between.type
  have type₂ := last.type
  rw [bytes] at type type₂
  rw [bytes'] at type₁
  exact ⟨s, s₁, s₂, a, a₁, a₂, c, m, first, type, inserted, between, type₁, erased, last, type₂⟩

end CppArt
