/-
**`_Node_48` and `_Node_256` are byte maps.**

`Node48.WF`: the bytes in use name distinct slots, the slots in use are exactly the named ones, and
`_count` is their number. `Node256.WF`: `_count` is the number of non-null pointers. Under these the
member functions change the byte map at one byte, an insertion below `max_size` finds a free slot
(`Node48.WF.exists_free`), and the scans over the 256 bytes stop inside the array at the byte the
order asks for.
-/

import CppArt.Model.Layout

namespace CppArt

/-- A slot number below 256 is not changed by the conversion. -/
theorem slotByte_val {size : ℕ} (le : size ≤ 256) (pos : Fin size) : (slotByte pos).val = pos.val :=
  Nat.mod_eq_of_lt (pos.isLt.trans_le le)

namespace Node48

/-- The child of a byte. -/
def child (nd : Node48) (b : Byte) : Option Addr := if nd.used b then nd.entry b else none

/-- **The invariant of a `_Node_48`.** -/
structure WF (nd : Node48) : Prop where
  slots : ∀ b, nd.used b → ∃ c, nd.children[(nd.childIndex.read b).val]? = some (some c)
  injective : ∀ b b', nd.used b → nd.used b' → nd.childIndex.read b = nd.childIndex.read b' → b = b'
  owned : ∀ i : ℕ, ∀ c, nd.children[i]? = some (some c) → ∃ b, nd.used b ∧ (nd.childIndex.read b).val = i
  count : nd.count = (Finset.univ.filter fun b => nd.used b = true).card

theorem used_iff {nd : Node48} {b : Byte} : nd.used b = true ↔ nd.childIndex.read b ≠ emptyMarker := by
  simp [used]

/-- A slot number of the array is not the marker. -/
theorem slot_ne_marker (pos : Fin 48) : slotByte pos ≠ emptyMarker := by
  intro same
  have value := (slotByte_val (by decide) pos).symm.trans (congrArg Fin.val same)
  have bound := pos.isLt
  simp only [emptyMarker] at value
  omega

namespace WF

variable {nd : Node48} (wf : nd.WF)

include wf

theorem child_of_used {b : Byte} (inUse : nd.used b = true) :
    ∃ c, nd.child b = some c ∧ nd.children[(nd.childIndex.read b).val]? = some (some c) := by
  obtain ⟨c, cell⟩ := wf.slots b inUse
  exact ⟨c, by rw [child, if_pos inUse, entry, cell]; rfl, cell⟩

theorem child_ne_none {b : Byte} : nd.child b ≠ none ↔ nd.used b = true := by
  constructor
  · intro present
    by_contra unused
    exact present (if_neg unused)
  · intro inUse
    obtain ⟨c, found, -⟩ := wf.child_of_used inUse
    rw [found]
    exact Option.some_ne_none c

theorem used_of_child {b : Byte} {c : Addr} (found : nd.child b = some c) :
    nd.used b = true ∧ nd.children[(nd.childIndex.read b).val]? = some (some c) := by
  have inUse := wf.child_ne_none.mp (found ▸ Option.some_ne_none c)
  obtain ⟨c', found', cell⟩ := wf.child_of_used inUse
  rw [found] at found'
  cases found'
  exact ⟨inUse, cell⟩

theorem unused_of_child {b : Byte} (absent : nd.child b = none) : nd.used b = false := by
  by_contra inUse
  exact wf.child_ne_none.mpr (Bool.not_eq_false _ ▸ inUse) absent

theorem index_lt {b : Byte} (inUse : nd.used b = true) : (nd.childIndex.read b).val < 48 := by
  obtain ⟨c, cell⟩ := wf.slots b inUse
  exact (Vector.getElem?_eq_some_iff.mp cell).1

theorem slot_ok {b : Byte} {c : Addr} (found : nd.child b = some c) : nd.slot b = .ok (some c) := by
  simp only [slot, (wf.used_of_child found).2]

theorem slotAt_ok {b : Byte} {c : Addr} (found : nd.child b = some c) : nd.slotAt b = .ok c := by
  simp only [slotAt, wf.slot_ok found, bind, Except.bind]

theorem find_ok (b : Byte) : nd.find b = .ok (nd.child b) := by
  unfold find
  by_cases inUse : nd.used b = true
  · obtain ⟨c, found, -⟩ := wf.child_of_used inUse
    rw [if_pos inUse, wf.slot_ok found, found]
  · rw [if_neg inUse, child, if_neg inUse]

theorem count_eq : nd.count = (Finset.univ.filter fun b => nd.child b ≠ none).card := by
  rw [wf.count]
  congr 1
  ext b
  simp only [Finset.mem_filter, Finset.mem_univ, true_and, wf.child_ne_none]

/-- **A node below `max_size` has a free slot.** Otherwise every slot is named by a byte of its own,
which makes 48 bytes in use. -/
theorem exists_free (room : nd.count < 48) :
    ∃ pos : Fin 48, (Fin.find? fun pos : Fin 48 => nd.children[pos].isNone) = some pos ∧
      nd.children[pos] = none := by
  rcases search : Fin.find? fun pos : Fin 48 => nd.children[pos].isNone with _ | pos
  · exfalso
    have full : ∀ pos : Fin 48, ∃ b, nd.used b = true ∧ (nd.childIndex.read b).val = pos.val := by
      intro pos
      have taken := Fin.find?_eq_none_iff.mp search pos
      have occupied : nd.children[pos] ≠ none := fun free => by simp [free] at taken
      obtain ⟨c, cell⟩ := Option.ne_none_iff_exists'.mp occupied
      exact wf.owned pos.val c (by simpa using cell)
    choose byte inUse atSlot using full
    have distinct : Function.Injective byte := by
      intro one two same
      apply Fin.ext
      rw [← atSlot one, ← atSlot two, same]
    have counted := Finset.card_le_card (s := Finset.univ.image byte)
      (t := Finset.univ.filter fun b => nd.used b = true) (by
        intro b member
        obtain ⟨pos, -, rfl⟩ := Finset.mem_image.mp member
        exact Finset.mem_filter.mpr ⟨Finset.mem_univ _, inUse pos⟩)
    rw [Finset.card_image_of_injective _ distinct, Finset.card_univ, Fintype.card_fin,
      ← wf.count] at counted
    omega
  · have free := (Fin.find?_eq_some_iff.mp search).1
    exact ⟨pos, rfl, Option.isNone_iff_eq_none.mp free⟩

/-- **`insert` of an absent byte.** -/
theorem insert_spec {b : Byte} (node : Addr) (room : nd.count < 48) (absent : nd.child b = none) :
    ∃ nd' : Node48, nd.insert b node = .ok nd' ∧ nd'.WF ∧ nd'.count = nd.count + 1 ∧
      ∀ b', nd'.child b' = if b' = b then some node else nd.child b' := by
  obtain ⟨pos, search, free⟩ := wf.exists_free room
  have unused := wf.unused_of_child absent
  let slot : Byte := slotByte pos
  have number : slot.val = pos.val := slotByte_val (by decide) pos
  let nd' : Node48 := ⟨nd.count + 1, nd.childIndex.write b slot, nd.children.set pos.val (some node)⟩
  have index : ∀ b', nd'.childIndex.read b' = if b' = b then slot else nd.childIndex.read b' :=
    fun b' => nd.childIndex.read_write b b' slot
  have usedHere : nd'.used b = true := by
    rw [used_iff, index, if_pos rfl]
    exact slot_ne_marker pos
  have usedElse : ∀ b', b' ≠ b → nd'.used b' = nd.used b' := by
    intro b' other
    simp only [used, index, if_neg other]
  have cells : ∀ i : ℕ, nd'.children[i]? = if i = pos.val then some (some node) else nd.children[i]? := by
    intro i
    simp only [nd', Vector.getElem?_set]
    by_cases same : pos.val = i
    · simp [same]
    · simp [same, Ne.symm same]
  have apart : ∀ b', nd.used b' = true → (nd.childIndex.read b').val ≠ pos.val := by
    intro b' inUse same
    obtain ⟨c, cell⟩ := wf.slots b' inUse
    rw [same] at cell
    have cell' : nd.children[pos] = some c := by simpa using cell
    rw [free] at cell'
    cases cell'
  have children : ∀ b', nd'.child b' = if b' = b then some node else nd.child b' := by
    intro b'
    by_cases same : b' = b
    · subst same
      rw [if_pos rfl, child, if_pos usedHere, entry, index, if_pos rfl, cells, if_pos number]
      rfl
    · rw [if_neg same, child, usedElse b' same, child]
      by_cases inUse : nd.used b' = true
      · rw [if_pos inUse, if_pos inUse, entry, entry, index, if_neg same, cells,
          if_neg (apart b' inUse)]
      · rw [if_neg inUse, if_neg inUse]
  have run : nd.insert b node = .ok nd' := by
    unfold insert
    rw [search]
  refine ⟨nd', run, ⟨?_, ?_, ?_, ?_⟩, rfl, children⟩
  · intro b' inUse
    by_cases same : b' = b
    · subst same
      exact ⟨node, by rw [index, if_pos rfl, cells, if_pos number]⟩
    · rw [usedElse b' same] at inUse
      obtain ⟨c, cell⟩ := wf.slots b' inUse
      exact ⟨c, by rw [index, if_neg same, cells, if_neg (apart b' inUse), cell]⟩
  · intro one two inUseOne inUseTwo same
    rw [index, index] at same
    by_cases oneHere : one = b <;> by_cases twoHere : two = b
    · rw [oneHere, twoHere]
    · rw [if_pos oneHere, if_neg twoHere] at same
      rw [usedElse two twoHere] at inUseTwo
      exact absurd ((congrArg Fin.val same).symm.trans number) (apart two inUseTwo)
    · rw [if_neg oneHere, if_pos twoHere] at same
      rw [usedElse one oneHere] at inUseOne
      exact absurd ((congrArg Fin.val same).trans number) (apart one inUseOne)
    · rw [if_neg oneHere, if_neg twoHere] at same
      rw [usedElse one oneHere] at inUseOne
      rw [usedElse two twoHere] at inUseTwo
      exact wf.injective one two inUseOne inUseTwo same
  · intro i c cell
    rw [cells] at cell
    by_cases here : i = pos.val
    · exact ⟨b, usedHere, by rw [index, if_pos rfl, here, number]⟩
    · rw [if_neg here] at cell
      obtain ⟨b', inUse, atSlot⟩ := wf.owned i c cell
      have other : b' ≠ b := by
        rintro rfl
        rw [unused] at inUse
        cases inUse
      exact ⟨b', by rw [usedElse b' other, inUse], by rw [index, if_neg other, atSlot]⟩
  · have grown : (Finset.univ.filter fun b' => nd'.used b' = true)
        = Insert.insert b (Finset.univ.filter fun b' => nd.used b' = true) := by
      ext b'
      simp only [Finset.mem_filter, Finset.mem_univ, true_and, Finset.mem_insert]
      by_cases same : b' = b
      · simp [same, usedHere]
      · simp [same, usedElse b' same]
    rw [grown, Finset.card_insert_of_notMem (by simp [unused]), ← wf.count]

/-- **`erase` of a present byte.** -/
theorem erase_spec {b : Byte} {c : Addr} (present : nd.child b = some c) :
    ∃ nd' : Node48, nd.erase b = .ok (some c, nd') ∧ nd'.WF ∧ nd'.count + 1 = nd.count ∧
      ∀ b', nd'.child b' = if b' = b then none else nd.child b' := by
  obtain ⟨inUseB, cellB⟩ := wf.used_of_child present
  have within := wf.index_lt inUseB
  let nd' : Node48 := ⟨nd.count - 1, nd.childIndex.write b emptyMarker,
    nd.children.setIfInBounds (nd.childIndex.read b).val none⟩
  have index : ∀ b', nd'.childIndex.read b' = if b' = b then emptyMarker else nd.childIndex.read b' :=
    fun b' => nd.childIndex.read_write b b' emptyMarker
  have usedHere : nd'.used b = false := by simp [used, index]
  have usedElse : ∀ b', b' ≠ b → nd'.used b' = nd.used b' := by
    intro b' other
    simp only [used, index, if_neg other]
  have cells : ∀ i : ℕ, nd'.children[i]?
      = if i = (nd.childIndex.read b).val then some none else nd.children[i]? := by
    intro i
    simp only [nd', Vector.getElem?_setIfInBounds]
    by_cases same : (nd.childIndex.read b).val = i
    · rw [if_pos same, if_pos same.symm, if_pos within]
    · rw [if_neg same, if_neg (Ne.symm same)]
  have apart : ∀ b', b' ≠ b → nd.used b' = true →
      (nd.childIndex.read b').val ≠ (nd.childIndex.read b).val := by
    intro b' other inUse same
    exact other (wf.injective b' b inUse inUseB (Fin.ext same))
  have children : ∀ b', nd'.child b' = if b' = b then none else nd.child b' := by
    intro b'
    by_cases same : b' = b
    · subst same
      rw [if_pos rfl, child, usedHere]
      rfl
    · rw [if_neg same, child, usedElse b' same, child]
      by_cases inUse : nd.used b' = true
      · rw [if_pos inUse, if_pos inUse, entry, entry, index, if_neg same, cells,
          if_neg (apart b' same inUse)]
      · rw [if_neg inUse, if_neg inUse]
  have dropped : Insert.insert b (Finset.univ.filter fun b' => nd'.used b' = true)
      = (Finset.univ.filter fun b' => nd.used b' = true) := by
    ext b'
    simp only [Finset.mem_filter, Finset.mem_univ, true_and, Finset.mem_insert]
    by_cases same : b' = b
    · simp [same, inUseB]
    · simp [same, usedElse b' same]
  have counted : nd.count = (Finset.univ.filter fun b' => nd'.used b' = true).card + 1 := by
    rw [wf.count, ← dropped, Finset.card_insert_of_notMem (by simp [usedHere])]
  refine ⟨nd', ?_, ⟨?_, ?_, ?_, ?_⟩, ?_, children⟩
  · simp only [erase, wf.slot_ok present, bind, Except.bind]
    rfl
  · intro b' inUse
    have other : b' ≠ b := by
      rintro rfl
      rw [usedHere] at inUse
      cases inUse
    rw [usedElse b' other] at inUse
    obtain ⟨c', cell⟩ := wf.slots b' inUse
    exact ⟨c', by rw [index, if_neg other, cells, if_neg (apart b' other inUse), cell]⟩
  · intro one two inUseOne inUseTwo same
    have otherOne : one ≠ b := by
      rintro rfl
      rw [usedHere] at inUseOne
      cases inUseOne
    have otherTwo : two ≠ b := by
      rintro rfl
      rw [usedHere] at inUseTwo
      cases inUseTwo
    rw [index, index, if_neg otherOne, if_neg otherTwo] at same
    rw [usedElse one otherOne] at inUseOne
    rw [usedElse two otherTwo] at inUseTwo
    exact wf.injective one two inUseOne inUseTwo same
  · intro i c' cell
    rw [cells] at cell
    by_cases here : i = (nd.childIndex.read b).val
    · rw [if_pos here] at cell
      cases cell
    · rw [if_neg here] at cell
      obtain ⟨b', inUse, atSlot⟩ := wf.owned i c' cell
      have other : b' ≠ b := by
        rintro rfl
        exact here atSlot.symm
      exact ⟨b', by rw [usedElse b' other, inUse], by rw [index, if_neg other, atSlot]⟩
  · show nd.count - 1 = _
    omega
  · show nd.count - 1 + 1 = nd.count
    omega

/-- **`update_child_ptr` of a present byte.** -/
theorem updateChildPtr_spec {b : Byte} {c : Addr} (node : Addr) (present : nd.child b = some c) :
    ∃ nd' : Node48, nd.updateChildPtr b node = .ok nd' ∧ nd'.WF ∧ nd'.count = nd.count ∧
      ∀ b', nd'.child b' = if b' = b then some node else nd.child b' := by
  obtain ⟨inUseB, cellB⟩ := wf.used_of_child present
  have within := wf.index_lt inUseB
  let nd' : Node48 :=
    { nd with children := nd.children.setIfInBounds (nd.childIndex.read b).val (some node) }
  have cells : ∀ i : ℕ, nd'.children[i]?
      = if i = (nd.childIndex.read b).val then some (some node) else nd.children[i]? := by
    intro i
    simp only [nd', Vector.getElem?_setIfInBounds]
    by_cases same : (nd.childIndex.read b).val = i
    · rw [if_pos same, if_pos same.symm, if_pos within]
    · rw [if_neg same, if_neg (Ne.symm same)]
  have apart : ∀ b', b' ≠ b → nd.used b' = true →
      (nd.childIndex.read b').val ≠ (nd.childIndex.read b).val := by
    intro b' other inUse same
    exact other (wf.injective b' b inUse inUseB (Fin.ext same))
  have usedSame : ∀ b', nd'.used b' = nd.used b' := fun _ => rfl
  have children : ∀ b', nd'.child b' = if b' = b then some node else nd.child b' := by
    intro b'
    have indexSame : nd'.childIndex.read b' = nd.childIndex.read b' := rfl
    by_cases same : b' = b
    · subst same
      rw [if_pos rfl, child, usedSame, if_pos inUseB, entry, indexSame, cells, if_pos rfl]
      rfl
    · rw [if_neg same, child, usedSame, child]
      by_cases inUse : nd.used b' = true
      · rw [if_pos inUse, if_pos inUse, entry, entry, indexSame, cells,
          if_neg (apart b' same inUse)]
      · rw [if_neg inUse, if_neg inUse]
  refine ⟨nd', ?_, ⟨?_, wf.injective, ?_, wf.count⟩, rfl, children⟩
  · simp only [updateChildPtr, if_pos inUseB, wf.slot_ok present, bind, Except.bind]
    rfl
  · intro b' inUse
    have indexSame : nd'.childIndex.read b' = nd.childIndex.read b' := rfl
    by_cases same : (nd.childIndex.read b').val = (nd.childIndex.read b).val
    · exact ⟨node, by rw [indexSame, cells, if_pos same]⟩
    · obtain ⟨c', cell⟩ := wf.slots b' inUse
      exact ⟨c', by rw [indexSame, cells, if_neg same, cell]⟩
  · intro i c' cell
    rw [cells] at cell
    by_cases here : i = (nd.childIndex.read b).val
    · exact ⟨b, inUseB, here.symm⟩
    · rw [if_neg here] at cell
      exact wf.owned i c' cell

end WF

end Node48

namespace Node256

/-- **The invariant of a `_Node_256`.** -/
structure WF (nd : Node256) : Prop where
  count : nd.count = (Finset.univ.filter fun b => nd.find b ≠ none).card

theorem used_iff {nd : Node256} {b : Byte} : nd.used b = true ↔ nd.find b ≠ none := by
  simp [used, find, Option.isSome_iff_ne_none]

theorem childAt_ok {nd : Node256} {b : Byte} {c : Addr} (found : nd.find b = some c) :
    nd.childAt b = .ok c := by
  have cell : nd.children.read b = some c := found
  simp only [childAt, cell]

namespace WF

variable {nd : Node256} (wf : nd.WF)

include wf

/-- **`insert` of an absent byte.** -/
theorem insert_spec {b : Byte} (node : Addr) (absent : nd.find b = none) :
    (nd.insert b node).WF ∧ (nd.insert b node).count = nd.count + 1 ∧
      ∀ b', (nd.insert b node).find b' = if b' = b then some node else nd.find b' := by
  have children : ∀ b', (nd.insert b node).find b' = if b' = b then some node else nd.find b' :=
    fun b' => nd.children.read_write b b' (some node)
  refine ⟨⟨?_⟩, rfl, children⟩
  have grown : (Finset.univ.filter fun b' => (nd.insert b node).find b' ≠ none)
      = Insert.insert b (Finset.univ.filter fun b' => nd.find b' ≠ none) := by
    ext b'
    simp only [Finset.mem_filter, Finset.mem_univ, true_and, Finset.mem_insert, children]
    by_cases same : b' = b <;> simp [same]
  rw [grown, Finset.card_insert_of_notMem (by simp [absent]), ← wf.count]
  rfl

/-- **`erase` of a present byte.** -/
theorem erase_spec {b : Byte} {c : Addr} (present : nd.find b = some c) :
    ∃ nd' : Node256, nd.erase b = (some c, nd') ∧ nd'.WF ∧ nd'.count + 1 = nd.count ∧
      ∀ b', nd'.find b' = if b' = b then none else nd.find b' := by
  let nd' : Node256 := ⟨nd.count - 1, nd.children.set b.val none⟩
  have children : ∀ b', nd'.find b' = if b' = b then none else nd.find b' :=
    fun b' => nd.children.read_write b b' none
  have dropped : Insert.insert b (Finset.univ.filter fun b' => nd'.find b' ≠ none)
      = (Finset.univ.filter fun b' => nd.find b' ≠ none) := by
    ext b'
    simp only [Finset.mem_filter, Finset.mem_univ, true_and, Finset.mem_insert, children]
    by_cases same : b' = b <;> simp [same, present]
  have counted : nd.count = (Finset.univ.filter fun b' => nd'.find b' ≠ none).card + 1 := by
    rw [wf.count, ← dropped, Finset.card_insert_of_notMem (by simp [children])]
  refine ⟨nd', ?_, ⟨?_⟩, ?_, children⟩
  · exact congrArg (fun kid => (kid, nd')) present
  · show nd.count - 1 = _
    omega
  · show nd.count - 1 + 1 = nd.count
    omega

/-- **`update_child_ptr` of a present byte.** -/
theorem updateChildPtr_spec {b : Byte} {c : Addr} (node : Addr) (present : nd.find b = some c) :
    (nd.updateChildPtr b node).WF ∧ (nd.updateChildPtr b node).count = nd.count ∧
      ∀ b', (nd.updateChildPtr b node).find b' = if b' = b then some node else nd.find b' := by
  have inUse : nd.used b = true := used_iff.mpr (present ▸ Option.some_ne_none c)
  have unfolded : nd.updateChildPtr b node
      = { nd with children := nd.children.set b.val (some node) } := if_pos inUse
  rw [unfolded]
  let nd' : Node256 := { nd with children := nd.children.set b.val (some node) }
  have children : ∀ b', nd'.find b' = if b' = b then some node else nd.find b' :=
    fun b' => nd.children.read_write b b' (some node)
  refine ⟨⟨?_⟩, rfl, children⟩
  rw [show nd'.count = nd.count from rfl, wf.count]
  congr 1
  ext b'
  simp only [Finset.mem_filter, Finset.mem_univ, true_and]
  show nd.find b' ≠ none ↔ nd'.find b' ≠ none
  rw [children]
  by_cases same : b' = b <;> simp [same, present]

end WF

end Node256

/-! ### Scans over the 256 bytes -/

section Scans

variable {used : Byte → Bool}

/-- The first byte in use. -/
theorem find?_used {b₀ : Byte} (inUse : used b₀ = true) :
    ∃ b, Fin.find? used = some b ∧ used b = true ∧ ∀ b', used b' = true → b ≤ b' := by
  rcases search : Fin.find? used with _ | b
  · rw [Fin.find?_eq_none_iff.mp search b₀] at inUse
    cases inUse
  · obtain ⟨here, before⟩ := Fin.find?_eq_some_iff.mp search
    refine ⟨b, rfl, here, fun b' inUse' => ?_⟩
    by_contra below
    rw [before b' (not_le.mp below)] at inUse'
    cases inUse'

/-- The last byte in use. -/
theorem findRev?_used {b₀ : Byte} (inUse : used b₀ = true) :
    ∃ b, Fin.findRev? used = some b ∧ used b = true ∧ ∀ b', used b' = true → b' ≤ b := by
  rcases search : Fin.findRev? used with _ | b
  · rw [Fin.findRev?_eq_none_iff.mp search b₀] at inUse
    cases inUse
  · obtain ⟨here, after⟩ := Fin.findRev?_eq_some_iff.mp search
    refine ⟨b, rfl, here, fun b' inUse' => ?_⟩
    by_contra above
    rw [after b' (not_le.mp above)] at inUse'
    cases inUse'

/-- The first byte in use above `b₀`, if any. -/
theorem find?_above (used : Byte → Bool) (b₀ : Byte) :
    ((Fin.find? fun b => decide (b₀ < b) && used b) = none ∧ ∀ b, used b = true → ¬ b₀ < b) ∨
      ∃ b, (Fin.find? fun b => decide (b₀ < b) && used b) = some b ∧ used b = true ∧ b₀ < b ∧
        ∀ b', used b' = true → b₀ < b' → b ≤ b' := by
  rcases search : Fin.find? fun b => decide (b₀ < b) && used b with _ | b
  · refine .inl ⟨rfl, fun b inUse above => ?_⟩
    have rejected := Fin.find?_eq_none_iff.mp search b
    simp [inUse, above] at rejected
  · obtain ⟨here, before⟩ := Fin.find?_eq_some_iff.mp search
    rw [Bool.and_eq_true, decide_eq_true_iff] at here
    refine .inr ⟨b, rfl, here.2, here.1, fun b' inUse above => ?_⟩
    by_contra below
    have rejected := before b' (not_le.mp below)
    simp [inUse, above] at rejected

/-- The last byte in use below `b₀`, if any. -/
theorem findRev?_below (used : Byte → Bool) (b₀ : Byte) :
    ((Fin.findRev? fun b => decide (b < b₀) && used b) = none ∧ ∀ b, used b = true → ¬ b < b₀) ∨
      ∃ b, (Fin.findRev? fun b => decide (b < b₀) && used b) = some b ∧ used b = true ∧ b < b₀ ∧
        ∀ b', used b' = true → b' < b₀ → b' ≤ b := by
  rcases search : Fin.findRev? fun b => decide (b < b₀) && used b with _ | b
  · refine .inl ⟨rfl, fun b inUse under => ?_⟩
    have rejected := Fin.findRev?_eq_none_iff.mp search b
    simp [inUse, under] at rejected
  · obtain ⟨here, after⟩ := Fin.findRev?_eq_some_iff.mp search
    rw [Bool.and_eq_true, decide_eq_true_iff] at here
    refine .inr ⟨b, rfl, here.2, here.1, fun b' inUse under => ?_⟩
    by_contra above
    have rejected := after b' (not_le.mp above)
    simp [inUse, under] at rejected

end Scans

end CppArt
