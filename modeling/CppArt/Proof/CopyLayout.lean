/-
**`copy_children`, layout by layout.**

The steps of `copy_children` go through the bytes in use (`Layout.copySteps_eq`). A step stores the
copy of a child in the slot of its byte, and takes the child to copy from `Layout.copied`. In `_Node_48`
that is the slot with the number of the byte: the child of some byte, and of the right one only if the
slots are aligned (`copied_of_aligned`, `source_of_copied`).

* `Layout.refill`: a layout whose slots have been filled in this way has a child for the same bytes.
-/

import CppArt.Model.Duo
import CppArt.Proof.Layout

namespace CppArt

namespace Layout

/-- The slot of the child of a byte. -/
def slotOf : Layout → Byte → ℕ
  | .node4 nd, b => nd.lowerPos b
  | .node16 nd, b => nd.lowerPos b
  | .node48 nd, b => (nd.childIndex.read b).val
  | .node256 _, b => b.val

/-- The child pointer in a slot. -/
def entryAt : Layout → ℕ → Option Addr
  | .node4 nd, i => (nd.children[i]?).join
  | .node16 nd, i => (nd.children[i]?).join
  | .node48 nd, i => (nd.children[i]?).join
  | .node256 nd, i => (nd.children[i]?).join

/-- The child pointer that is copied for a byte. -/
def copied : Layout → Byte → Except Fault (Option Addr)
  | .node48 nd, b => childSlot nd.children b.val
  | l, b => .ok (l.child b)

/-- The slot of a byte has the number of the byte, if the node is a `_Node_48`. -/
def AlignedAt : Layout → Byte → Prop
  | .node48 nd, b => nd.childIndex.read b = b
  | _, _ => True

variable {l l' : Layout}

theorem aligned_iff (wf : l.WF) : l.Aligned ↔ ∀ b, l.child b ≠ none → l.AlignedAt b := by
  cases l with
  | node48 nd => exact forall_congr' fun b => by rw [child, Node48.WF.child_ne_none wf, AlignedAt]
  | node4 nd | node16 nd | node256 nd => exact iff_of_true trivial fun _ _ => trivial

/-! ### The steps -/

theorem childSlot_ok {size : ℕ} {children : Vector (Option Addr) size} {i : ℕ} {x : Option Addr} :
    childSlot children i = .ok x ↔ children[i]? = some x := by
  unfold childSlot
  rcases children[i]? with _ | y <;> simp

/-- The entries of a sorted node in the order of its arrays. -/
theorem sortedSteps_eq {cap : ℕ} {nd : SortedNode cap} (wf : nd.WF) :
    ((List.range nd.count).map fun i =>
        (⟨i, childSlot nd.children i, childSlot nd.children i⟩ : CopyStep)) =
      ((List.range nd.count).map nd.key).map fun b => ⟨nd.lowerPos b, .ok (nd.find b), .ok (nd.find b)⟩ := by
  rw [List.map_map]
  refine List.map_congr_left fun i inside => ?_
  have lt : i < nd.count := List.mem_range.mp inside
  obtain ⟨c, kid⟩ := Option.ne_none_iff_exists'.mp (wf.filled i lt)
  have slot : childSlot nd.children i = .ok (nd.find (nd.key i)) := by
    rw [childSlot_ok, wf.find_key lt, kid]
    exact Option.join_eq_some_iff.mp kid
  show CopyStep.mk _ _ _ = CopyStep.mk _ _ _
  rw [slot, wf.lowerPos_key lt]

/-- **The steps of `copy_children`** go through the bytes in use. -/
theorem copySteps_eq (wf : l.WF) :
    l.copySteps = l.byteList.map fun b => ⟨l.slotOf b, .ok (l.child b), l.copied b⟩ := by
  cases l with
  | node4 nd => exact sortedSteps_eq wf
  | node16 nd => exact sortedSteps_eq wf
  | node48 nd =>
      refine List.map_congr_left fun b inside => ?_
      obtain ⟨c, found, -⟩ := Node48.WF.child_of_used wf (by simpa [Node48.usedBytes] using inside)
      show CopyStep.mk _ _ _ = CopyStep.mk _ (.ok (nd.child b)) _
      rw [Node48.WF.slot_ok wf found, found]
      rfl
  | node256 nd =>
      refine List.map_congr_left fun b _ => ?_
      have slot : childSlot nd.children b.val = .ok (nd.find b) :=
        childSlot_ok.mpr (by simp [Node256.find, ByteTable.read])
      show CopyStep.mk _ _ _ = CopyStep.mk _ (.ok (nd.find b)) (.ok (nd.find b))
      rw [slot]
      rfl

/-- **Where the slots are aligned** the child that is copied is the right one. -/
theorem copied_of_aligned (wf : l.WF) {b : Byte} {c : Addr} (slot : l.child b = some c)
    (aligned : l.AlignedAt b) : l.copied b = .ok (some c) := by
  cases l with
  | node48 nd =>
      obtain ⟨-, cell⟩ := Node48.WF.used_of_child wf slot
      have index : nd.childIndex.read b = b := aligned
      rw [index] at cell
      exact childSlot_ok.mpr cell
  | node4 nd | node16 nd | node256 nd => exact congrArg Except.ok slot

/-- **The child that is copied** is the child of some byte, and of the right one exactly where the slots
are aligned. -/
theorem source_of_copied (wf : l.WF) {b : Byte} {y : Addr} (inside : l.child b ≠ none)
    (present : l.copied b = .ok (some y)) : ∃ b', l.child b' = some y ∧ (b' = b ↔ l.AlignedAt b) := by
  cases l with
  | node48 nd =>
      have cell : nd.children[b.val]? = some (some y) := childSlot_ok.mp present
      obtain ⟨b', inUse, index⟩ := wf.owned b.val y cell
      refine ⟨b', ?_, fun same => ?_, fun aligned => ?_⟩
      · show nd.child b' = some y
        rw [Node48.child, if_pos inUse, Node48.entry, index, cell]
        rfl
      · rw [same] at index
        exact Fin.ext index
      · have here : nd.childIndex.read b = b := aligned
        exact wf.injective b' b inUse ((Node48.WF.child_ne_none wf).mp inside)
          (Fin.ext (index.trans (congrArg Fin.val here.symm)))
  | node4 nd | node16 nd | node256 nd =>
      exact ⟨b, Except.ok.inj present, iff_of_true rfl trivial⟩

/-! ### The slots -/

theorem slotOf_inj (wf : l.WF) {b b' : Byte} (inside : l.child b ≠ none) (inside' : l.child b' ≠ none)
    (same : l.slotOf b = l.slotOf b') : b = b' := by
  have sorted : ∀ {cap : ℕ} {nd : SortedNode cap}, nd.WF → nd.find b ≠ none → nd.find b' ≠ none →
      nd.lowerPos b = nd.lowerPos b' → b = b' := by
    intro cap nd wf inside inside' same
    obtain ⟨c, found⟩ := Option.ne_none_iff_exists'.mp inside
    obtain ⟨c', found'⟩ := Option.ne_none_iff_exists'.mp inside'
    rw [← (wf.lowerPos_of_find found).2.1, same, (wf.lowerPos_of_find found').2.1]
  cases l with
  | node4 nd => exact sorted wf inside inside' same
  | node16 nd => exact sorted wf inside inside' same
  | node48 nd =>
      exact wf.injective b b' ((Node48.WF.child_ne_none wf).mp inside)
        ((Node48.WF.child_ne_none wf).mp inside') (Fin.ext same)
  | node256 nd => exact Fin.ext same

@[simp] theorem withoutChildren_setSlot (slot : ℕ) (c : Addr) (l : Layout) :
    (l.setSlot slot c).withoutChildren = l.withoutChildren := by
  cases l <;> rfl

@[simp] theorem withoutChildren_withoutChildren (l : Layout) :
    l.withoutChildren.withoutChildren = l.withoutChildren := by
  cases l <;> rfl

theorem entryAt_withoutChildren (l : Layout) (i : ℕ) : l.withoutChildren.entryAt i = none := by
  have empty : ∀ size : ℕ, ((Vector.replicate size (none : Option Addr))[i]?).join = none := by
    intro size
    rw [Vector.getElem?_replicate]
    split_ifs <;> rfl
  cases l <;> exact empty _

theorem entryAt_setSlot_of_ne {slot i : ℕ} (other : i ≠ slot) (c : Addr) (l : Layout) :
    (l.setSlot slot c).entryAt i = l.entryAt i := by
  cases l <;> simp [setSlot, entryAt, other.symm]

theorem join_setIfInBounds {size i : ℕ} (children : Vector (Option Addr) size) (lt : i < size) (c : Addr) :
    ((children.setIfInBounds i (some c))[i]?).join = some c := by
  simp [lt]

/-- The slot of a byte in use is a slot of the array. -/
theorem entryAt_setSlot_self (wf : l.WF) {b : Byte} (inside : l.child b ≠ none)
    (skeleton : l'.withoutChildren = l.withoutChildren) (c : Addr) :
    (l'.setSlot (l.slotOf b) c).entryAt (l.slotOf b) = some c := by
  have sorted : ∀ {cap : ℕ} {nd : SortedNode cap}, nd.WF → nd.find b ≠ none → nd.lowerPos b < cap := by
    intro cap nd wf inside
    obtain ⟨c', found⟩ := Option.ne_none_iff_exists'.mp inside
    exact (wf.lowerPos_of_find found).1.trans_le wf.le
  cases l with
  | node4 nd => cases l' <;> first | exact join_setIfInBounds _ (sorted wf inside) c | cases skeleton
  | node16 nd => cases l' <;> first | exact join_setIfInBounds _ (sorted wf inside) c | cases skeleton
  | node48 nd =>
      have lt := Node48.WF.index_lt wf ((Node48.WF.child_ne_none wf).mp inside)
      cases l' <;> first | exact join_setIfInBounds _ lt c | cases skeleton
  | node256 nd => cases l' <;> first | exact join_setIfInBounds _ b.isLt c | cases skeleton

theorem getType_of_skeleton (skeleton : l'.withoutChildren = l.withoutChildren) :
    l'.getType = l.getType := by
  cases l <;> cases l' <;> first | rfl | cases skeleton

theorem count_of_skeleton (skeleton : l'.withoutChildren = l.withoutChildren) : l'.count = l.count := by
  cases l <;> cases l' <;> simp_all [withoutChildren, count]

/-- A sorted node whose slots have been filled. -/
theorem sortedRefill {cap : ℕ} {nd nd' : SortedNode cap} (wf : nd.WF) (count : nd'.count = nd.count)
    (keys : nd'.keys = nd.keys) (g : Byte → Addr)
    (filled : ∀ b, nd.find b ≠ none → nd'.kid (nd.lowerPos b) = some (g b)) :
    nd'.WF ∧ ∀ b, nd'.find b = (nd.find b).map fun _ => g b := by
  have key : ∀ i, nd'.key i = nd.key i := fun i => by rw [SortedNode.key, SortedNode.key, keys]
  have present : ∀ i < nd.count, nd'.kid i = some (g (nd.key i)) := by
    intro i lt
    have inside : nd.find (nd.key i) ≠ none := by
      rw [wf.find_key lt]
      exact wf.filled i lt
    rw [← filled _ inside, wf.lowerPos_key lt]
  have wf' : nd'.WF := by
    refine ⟨count ▸ wf.le, fun i j less lt => ?_, fun i lt => ?_⟩
    · rw [key, key]
      exact wf.sorted i j less (count ▸ lt)
    · rw [present i (count ▸ lt)]
      exact Option.some_ne_none _
  refine ⟨wf', fun b => ?_⟩
  rcases found : nd.find b with _ | c
  · rw [Option.map_none, wf'.find_eq_none]
    intro i lt
    rw [key]
    exact wf.find_eq_none.mp found i (count ▸ lt)
  · obtain ⟨lt, here, -⟩ := wf.lowerPos_of_find found
    refine wf'.find_eq_some.mpr ⟨nd.lowerPos b, count.symm ▸ lt, (key _).trans here, ?_⟩
    exact filled b (found ▸ Option.some_ne_none c)

/-- **A layout whose slots have been filled** has a child for the same bytes. -/
theorem refill (wf : l.WF) (skeleton : l'.withoutChildren = l.withoutChildren) (g : Byte → Addr)
    (filled : ∀ b, l.child b ≠ none → l'.entryAt (l.slotOf b) = some (g b))
    (only : ∀ i c, l'.entryAt i = some c → ∃ b, l.child b ≠ none ∧ l.slotOf b = i) :
    l'.WF ∧ ∀ b, l'.child b = (l.child b).map fun _ => g b := by
  cases l with
  | node4 nd =>
      cases l' with
      | node4 nd' =>
          simp only [withoutChildren, node4.injEq, SortedNode.mk.injEq] at skeleton
          exact sortedRefill wf skeleton.1 skeleton.2.1 g filled
      | node16 nd' | node48 nd' | node256 nd' => cases skeleton
  | node16 nd =>
      cases l' with
      | node16 nd' =>
          simp only [withoutChildren, node16.injEq, SortedNode.mk.injEq] at skeleton
          exact sortedRefill wf skeleton.1 skeleton.2.1 g filled
      | node4 nd' | node48 nd' | node256 nd' => cases skeleton
  | node48 nd =>
      cases l' with
      | node48 nd' =>
          simp only [withoutChildren, node48.injEq, Node48.mk.injEq] at skeleton
          obtain ⟨count, index, -⟩ := skeleton
          have used : ∀ b, nd'.used b = nd.used b := fun b => by rw [Node48.used, Node48.used, index]
          have present : ∀ b, nd.used b = true → nd'.children[(nd'.childIndex.read b).val]? = some (some (g b)) := by
            intro b inUse
            have here := filled b ((Node48.WF.child_ne_none wf).mpr inUse)
            rw [index]
            exact Option.join_eq_some_iff.mp here
          have wf' : nd'.WF := by
            refine ⟨fun b inUse => ⟨g b, present b (used b ▸ inUse)⟩, fun b b' inUse inUse' same => ?_,
              fun i c cell => ?_, ?_⟩
            · rw [index] at same
              exact wf.injective b b' (used b ▸ inUse) (used b' ▸ inUse') same
            · obtain ⟨b, inside, slot⟩ := only i c (Option.join_eq_some_iff.mpr cell)
              refine ⟨b, (used b).trans ((Node48.WF.child_ne_none wf).mp inside), ?_⟩
              rw [index]
              exact slot
            · rw [count, wf.count]
              simp only [used]
          refine ⟨wf', fun b => ?_⟩
          show nd'.child b = (nd.child b).map _
          rcases found : nd.child b with _ | c
          · rw [Node48.child, used b, Node48.WF.unused_of_child wf found]
            rfl
          · obtain ⟨inUse, -⟩ := Node48.WF.used_of_child wf found
            rw [Node48.child, if_pos ((used b).trans inUse), Node48.entry, present b inUse]
            rfl
      | node4 nd' | node16 nd' | node256 nd' => cases skeleton
  | node256 nd =>
      cases l' with
      | node256 nd' =>
          have count : nd'.count = nd.count := count_of_skeleton skeleton
          have entry : ∀ b : Byte, entryAt (.node256 nd') b.val = nd'.find b := fun b => by
            simp [entryAt, Node256.find, ByteTable.read]
          have children : ∀ b, nd'.find b = (nd.find b).map fun _ => g b := by
            intro b
            rcases found : nd.find b with _ | c
            · by_contra present
              obtain ⟨c, there⟩ := Option.ne_none_iff_exists'.mp present
              obtain ⟨b', inside, slot⟩ := only b.val c ((entry b).trans there)
              obtain rfl : b' = b := Fin.ext slot
              exact inside found
            · rw [← entry]
              exact filled b (by rw [show child (.node256 nd) b = _ from found]; exact Option.some_ne_none c)
          refine ⟨⟨?_⟩, children⟩
          rw [count, wf.count]
          simp [children]
      | node4 nd' | node16 nd' | node48 nd' => cases skeleton

end Layout

end CppArt
