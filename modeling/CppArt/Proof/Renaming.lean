/-
**The operations on the arrays of a node do not look at the pointers in them.**

Every operation on a layout commutes with a renaming of the child pointers (`Layout.rename`): the lookups,
the insertion and the erasure of a child, the neighbours and extremes, the conversions between the four
classes.
-/

import CppArt.Model.Relocation
import CppArt.Proof.Nodes

namespace CppArt

variable {g : Addr → Addr}

/-! ### Arrays of pointers -/

theorem memmove_map {α β : Type} {size : ℕ} (f : α → β) (v : Vector α size) (first last dest : ℕ) :
    memmove (v.map f) first last dest = (memmove v first last dest).map (Vector.map f) := by
  unfold memmove
  split_ifs with inside
  · refine congrArg Except.ok (Vector.ext fun i lt => ?_)
    simp only [Vector.getElem_ofFn, Vector.getElem_map, Vector.getElem?_map, Vector.get_eq_getElem]
    split_ifs
    · cases v[first + (i - dest)]? <;> rfl
    · rfl
  · rfl

namespace SortedNode

variable {cap : ℕ} (nd : SortedNode cap)

theorem rename_slot (pos : ℕ) : (nd.rename g).children[pos]? = nd.children[pos]?.map (Option.map g) := by
  simp [rename]

theorem rename_setSlot (pos : ℕ) (c : Option Addr) :
    (nd.rename g).children.setIfInBounds pos (c.map g)
      = (nd.children.setIfInBounds pos c).map (Option.map g) := by
  simp [rename]

theorem rename_childAt (pos : ℕ) : (nd.rename g).childAt pos = (nd.childAt pos).map g := by
  unfold childAt
  rw [rename_slot]
  rcases nd.children[pos]? with _ | _ | c <;> rfl

theorem rename_find (b : Byte) : (nd.rename g).find b = (nd.find b).map g := by
  unfold find
  show (if nd.lowerPos b < nd.count ∧ nd.keys[nd.lowerPos b]? = some b then
    ((nd.rename g).children[nd.lowerPos b]?).join else none) = _
  simp only [rename_slot]
  split_ifs
  · rcases nd.children[nd.lowerPos b]? with _ | _ | c <;> rfl
  · rfl

theorem rename_place (pos : ℕ) (b : Byte) (c : Addr) :
    (nd.rename g).place pos b (g c) = (nd.place pos b c).map (rename g) := by
  unfold place
  split_ifs
  · simp [rename, Except.map, Vector.map_set]
  · rfl

theorem rename_insert (b : Byte) (c : Addr) :
    (nd.rename g).insert b (g c) = (nd.insert b c).map (rename g) := by
  show (if nd.lowerPos b < nd.count then do
      let keys ← memmove nd.keys (nd.lowerPos b) nd.count (nd.lowerPos b + 1)
      let children ← memmove (nd.children.map (Option.map g)) (nd.lowerPos b) nd.count (nd.lowerPos b + 1)
      place ⟨nd.count, keys, children⟩ (nd.lowerPos b) b (g c)
    else (nd.rename g).place (nd.lowerPos b) b (g c)) = _
  unfold insert
  rw [memmove_map, rename_place]
  dsimp only
  split_ifs
  · rcases memmove nd.keys (nd.lowerPos b) nd.count (nd.lowerPos b + 1) with fault | keys
    · rfl
    rcases memmove nd.children (nd.lowerPos b) nd.count (nd.lowerPos b + 1) with fault | children
    · rfl
    exact rename_place ⟨nd.count, keys, children⟩ _ _ _
  · rfl

theorem rename_erase (b : Byte) :
    (nd.rename g).erase b = (nd.erase b).map (Prod.map (Option.map g) (rename g)) := by
  show (if nd.lowerPos b < nd.count then do
      let keys ← memmove nd.keys (nd.lowerPos b + 1) nd.count (nd.lowerPos b)
      let children ← memmove (nd.children.map (Option.map g)) (nd.lowerPos b + 1) nd.count (nd.lowerPos b)
      (.ok (((nd.rename g).children[nd.lowerPos b]?).join, ⟨nd.count - 1, keys, children⟩) :
        Except Fault (Option Addr × SortedNode cap))
    else .ok (none, nd.rename g)) = _
  unfold erase
  rw [memmove_map, rename_slot]
  dsimp only
  split_ifs
  · rcases memmove nd.keys (nd.lowerPos b + 1) nd.count (nd.lowerPos b) with fault | keys
    · rfl
    rcases memmove nd.children (nd.lowerPos b + 1) nd.count (nd.lowerPos b) with fault | children
    · rfl
    rcases nd.children[nd.lowerPos b]? with _ | _ | c <;> rfl
  · rfl

theorem rename_updateChildPtr (b : Byte) (c : Addr) :
    (nd.rename g).updateChildPtr b (g c) = (nd.updateChildPtr b c).rename g := by
  show (if nd.lowerPos b < nd.count ∧ nd.keys[nd.lowerPos b]? = some b then
    { nd.rename g with children := (nd.rename g).children.setIfInBounds (nd.lowerPos b) (some (g c)) }
    else nd.rename g) = _
  unfold updateChildPtr
  dsimp only
  split_ifs
  · exact congrArg (SortedNode.mk nd.count nd.keys) (rename_setSlot nd _ (some c))
  · rfl

theorem rename_extreme :
    (nd.rename g).minimumChild = nd.minimumChild.map g ∧
      (nd.rename g).maximumChild = nd.maximumChild.map g := by
  refine ⟨rename_childAt nd 0, ?_⟩
  show (if nd.count = 0 then .error .outOfBounds else (nd.rename g).childAt (nd.count - 1)) = _
  unfold maximumChild
  split_ifs
  · rfl
  · exact rename_childAt nd _

theorem rename_beyond (b : Byte) :
    (nd.rename g).successorChild b = (nd.successorChild b).map (Option.map g) ∧
      (nd.rename g).predecessorChild b = (nd.predecessorChild b).map (Option.map g) := by
  have some_childAt : ∀ pos, ((nd.rename g).childAt pos).map some
      = ((nd.childAt pos).map some).map (Option.map g) := by
    intro pos
    rw [rename_childAt]
    rcases nd.childAt pos with fault | c <;> rfl
  constructor
  · show (if nd.upperPos b < nd.count then ((nd.rename g).childAt (nd.upperPos b)).map some
      else .ok none) = _
    unfold successorChild
    rw [some_childAt]
    dsimp only
    split_ifs <;> rfl
  · show (if nd.stepsDown b < nd.count then
      ((nd.rename g).childAt (nd.count - 1 - nd.stepsDown b)).map some else .ok none) = _
    unfold predecessorChild
    rw [some_childAt]
    dsimp only
    split_ifs <;> rfl

end SortedNode

namespace Node48

variable (nd : Node48)

theorem rename_slot (b : Byte) : (nd.rename g).slot b = (nd.slot b).map (Option.map g) := by
  have same : (nd.rename g).children[((nd.rename g).childIndex.read b).val]?
      = nd.children[(nd.childIndex.read b).val]?.map (Option.map g) := Vector.getElem?_map
  unfold slot
  rw [same]
  rcases nd.children[(nd.childIndex.read b).val]? with _ | c <;> rfl

theorem rename_setSlot (pos : ℕ) (c : Option Addr) :
    (nd.rename g).children.setIfInBounds pos (c.map g)
      = (nd.children.setIfInBounds pos c).map (Option.map g) := by
  simp [rename]

theorem rename_slotAt (b : Byte) : (nd.rename g).slotAt b = (nd.slotAt b).map g := by
  unfold slotAt
  rw [rename_slot]
  rcases nd.slot b with fault | _ | c <;> rfl

theorem rename_find (b : Byte) : (nd.rename g).find b = (nd.find b).map (Option.map g) := by
  show (if nd.used b then (nd.rename g).slot b else .ok none) = _
  unfold find
  rw [rename_slot]
  split_ifs <;> rfl

theorem rename_insert (b : Byte) (c : Addr) :
    (nd.rename g).insert b (g c) = (nd.insert b c).map (rename g) := by
  have free : (fun pos : Fin 48 => (nd.rename g).children[pos].isNone)
      = fun pos : Fin 48 => nd.children[pos].isNone := by
    funext pos
    simp [rename]
  unfold insert
  rw [free]
  rcases Fin.find? fun pos : Fin 48 => nd.children[pos].isNone with _ | pos
  · rfl
  · simp [rename, Except.map, Vector.map_set]

theorem rename_erase (b : Byte) :
    (nd.rename g).erase b = (nd.erase b).map (Prod.map (Option.map g) (rename g)) := by
  unfold erase
  rw [rename_slot]
  rcases nd.slot b with fault | c
  · rfl
  · exact congrArg (fun v => Except.ok (c.map g, Node48.mk (nd.count - 1) _ v))
      (rename_setSlot nd _ none)

theorem rename_updateChildPtr (b : Byte) (c : Addr) :
    (nd.rename g).updateChildPtr b (g c) = (nd.updateChildPtr b c).map (rename g) := by
  show (if nd.used b then do
      let _ ← (nd.rename g).slot b
      (.ok { nd.rename g with
        children := (nd.rename g).children.setIfInBounds (nd.childIndex.read b).val (some (g c)) } :
        Except Fault Node48)
    else .ok (nd.rename g)) = _
  unfold updateChildPtr
  rw [rename_slot]
  split_ifs
  · rcases nd.slot b with fault | old
    · rfl
    · exact congrArg (fun v => Except.ok (Node48.mk nd.count nd.childIndex v))
        (rename_setSlot nd _ (some c))
  · rfl

theorem rename_extreme :
    (nd.rename g).minimumChild = nd.minimumChild.map g ∧
      (nd.rename g).maximumChild = nd.maximumChild.map g := by
  have used : (nd.rename g).used = nd.used := rfl
  unfold minimumChild maximumChild
  rw [used]
  constructor
  · rcases Fin.find? nd.used with _ | pos
    · rfl
    · exact rename_slotAt nd pos
  · rcases Fin.findRev? nd.used with _ | pos
    · rfl
    · exact rename_slotAt nd pos

theorem rename_beyond (b : Byte) :
    (nd.rename g).successorChild b = (nd.successorChild b).map (Option.map g) ∧
      (nd.rename g).predecessorChild b = (nd.predecessorChild b).map (Option.map g) := by
  have used : (nd.rename g).used = nd.used := rfl
  have some_slotAt : ∀ pos, ((nd.rename g).slotAt pos).map some
      = ((nd.slotAt pos).map some).map (Option.map g) := by
    intro pos
    rw [rename_slotAt]
    rcases nd.slotAt pos with fault | c <;> rfl
  unfold successorChild predecessorChild
  rw [used]
  constructor
  · rcases Fin.find? fun pos => decide (b < pos) && nd.used pos with _ | pos
    · rfl
    · exact some_slotAt pos
  · rcases Fin.findRev? fun pos => decide (pos < b) && nd.used pos with _ | pos
    · rfl
    · exact some_slotAt pos

theorem rename_entry (b : Byte) : (nd.rename g).entry b = (nd.entry b).map g := by
  have same : (nd.rename g).children[((nd.rename g).childIndex.read b).val]?
      = nd.children[(nd.childIndex.read b).val]?.map (Option.map g) := Vector.getElem?_map
  unfold entry
  rw [same]
  rcases nd.children[(nd.childIndex.read b).val]? with _ | _ | c <;> rfl

theorem rename_entries :
    (nd.rename g).usedBytes.map (nd.rename g).entry = (nd.usedBytes.map nd.entry).map (Option.map g) := by
  have bytes : (nd.rename g).usedBytes = nd.usedBytes := rfl
  rw [bytes, List.map_map]
  exact List.map_congr_left fun b _ => rename_entry nd b

end Node48

namespace Node256

variable (nd : Node256)

theorem rename_read (b : Byte) : (nd.rename g).children.read b = (nd.children.read b).map g := by
  simp [rename, ByteTable.read]

theorem rename_write (b : Byte) (c : Option Addr) :
    (nd.rename g).children.write b (c.map g) = (nd.children.write b c).map (Option.map g) := by
  simp [rename, ByteTable.write]

theorem rename_used (b : Byte) : (nd.rename g).used b = nd.used b := by
  unfold used
  rw [rename_read, Option.isSome_map]

theorem rename_usedBytes : (nd.rename g).usedBytes = nd.usedBytes := by
  have used : (nd.rename g).used = nd.used := funext fun b => rename_used nd b
  unfold usedBytes
  rw [used]

theorem rename_childAt (b : Byte) : (nd.rename g).childAt b = (nd.childAt b).map g := by
  unfold childAt
  rw [rename_read]
  rcases nd.children.read b with _ | c <;> rfl

theorem rename_insert (b : Byte) (c : Addr) :
    (nd.rename g).insert b (g c) = (nd.insert b c).rename g :=
  congrArg (Node256.mk (nd.count + 1)) (rename_write nd b (some c))

theorem rename_erase (b : Byte) :
    (nd.rename g).erase b = Prod.map (Option.map g) (rename g) (nd.erase b) :=
  congrArg₂ (fun c v => (c, Node256.mk (nd.count - 1) v)) (rename_read nd b) (rename_write nd b none)

theorem rename_updateChildPtr (b : Byte) (c : Addr) :
    (nd.rename g).updateChildPtr b (g c) = (nd.updateChildPtr b c).rename g := by
  unfold updateChildPtr
  rw [rename_used]
  split_ifs
  · exact congrArg (Node256.mk nd.count) (rename_write nd b (some c))
  · rfl

theorem rename_extreme :
    (nd.rename g).minimumChild = nd.minimumChild.map g ∧
      (nd.rename g).maximumChild = nd.maximumChild.map g := by
  have used : (nd.rename g).used = nd.used := funext fun b => rename_used nd b
  unfold minimumChild maximumChild
  rw [used]
  constructor
  · rcases Fin.find? nd.used with _ | pos
    · rfl
    · exact rename_childAt nd pos
  · rcases Fin.findRev? nd.used with _ | pos
    · rfl
    · exact rename_childAt nd pos

theorem rename_beyond (b : Byte) :
    (nd.rename g).successorChild b = (nd.successorChild b).map (Option.map g) ∧
      (nd.rename g).predecessorChild b = (nd.predecessorChild b).map (Option.map g) := by
  have used : (nd.rename g).used = nd.used := funext fun b => rename_used nd b
  have some_childAt : ∀ pos, ((nd.rename g).childAt pos).map some
      = ((nd.childAt pos).map some).map (Option.map g) := by
    intro pos
    rw [rename_childAt]
    rcases nd.childAt pos with fault | c <;> rfl
  unfold successorChild predecessorChild
  rw [used]
  constructor
  · rcases Fin.find? fun pos => decide (b < pos) && nd.used pos with _ | pos
    · rfl
    · exact some_childAt pos
  · rcases Fin.findRev? fun pos => decide (pos < b) && nd.used pos with _ | pos
    · rfl
    · exact some_childAt pos

end Node256

/-! ### Grow and shrink -/

theorem rename_ofNode4 (nd : Node4) : Node16.ofNode4 (nd.rename g) = (Node16.ofNode4 nd).rename g := by
  refine congrArg (SortedNode.mk 4 _) (Vector.ext fun i lt => ?_)
  simp only [Node16.ofNode4, Vector.getElem_ofFn, Vector.getElem_map, SortedNode.rename_slot]
  rcases nd.children[i]? with _ | c <;> rfl

theorem rename_ofNode16 (nd : Node16) : Node48.ofNode16 (nd.rename g) = (Node48.ofNode16 nd).rename g := by
  refine congrArg (Node48.mk 16 _) (Vector.ext fun i lt => ?_)
  simp only [Node48.ofNode16, Vector.getElem_ofFn, Vector.getElem_map, SortedNode.rename_slot]
  rcases nd.children[i]? with _ | c <;> rfl

theorem rename_node4_ofNode16 (nd : Node16) :
    Node4.ofNode16 (nd.rename g) = (Node4.ofNode16 nd).rename g := by
  refine congrArg (SortedNode.mk 4 _) (Vector.ext fun i lt => ?_)
  simp [SortedNode.rename, Node4.ofNode16]

theorem rename_node16_ofNode48 (nd : Node48) :
    Node16.ofNode48 (nd.rename g) = (Node16.ofNode48 nd).map (SortedNode.rename g) := by
  have same : (nd.rename g).inRange = nd.inRange ∧ (nd.rename g).usedBytes = nd.usedBytes := ⟨rfl, rfl⟩
  unfold Node16.ofNode48
  rw [same.1, same.2]
  split_ifs
  · refine congrArg (fun v => Except.ok (SortedNode.mk 16 _ v)) (Vector.ext fun i lt => ?_)
    simp only [Vector.getElem_ofFn, Vector.getElem_map]
    rcases nd.usedBytes[i]? with _ | b
    · rfl
    · exact Node48.rename_entry nd b
  · rfl

theorem rename_node256_ofNode48 (nd : Node48) :
    Node256.ofNode48 (nd.rename g) = (Node256.ofNode48 nd).map (Node256.rename g) := by
  have same : (nd.rename g).inRange = nd.inRange := rfl
  unfold Node256.ofNode48
  rw [same]
  split_ifs
  · refine congrArg (fun v => Except.ok (Node256.mk 48 v)) (Vector.ext fun i lt => ?_)
    have used : (nd.rename g).used = nd.used := rfl
    simp only [Vector.getElem_ofFn, Vector.getElem_map, used]
    split_ifs
    · exact Node48.rename_entry nd _
    · rfl
  · rfl

theorem rename_ofNode256 (nd : Node256) :
    Node48.ofNode256 (nd.rename g) = (Node48.ofNode256 nd).map (Node48.rename g) := by
  have used : (nd.rename g).used = nd.used := funext fun b => Node256.rename_used nd b
  unfold Node48.ofNode256
  rw [Node256.rename_usedBytes, used]
  split_ifs
  · refine congrArg (fun v => Except.ok (Node48.mk 48 _ v)) (Vector.ext fun i lt => ?_)
    simp only [Vector.getElem_ofFn, Vector.getElem_map]
    rcases nd.usedBytes[i]? with _ | b
    · rfl
    · exact Node256.rename_read nd b
  · rfl

namespace Layout

variable (l : Layout)

@[simp] theorem rename_getType : (l.rename g).getType = l.getType := by cases l <;> rfl

@[simp] theorem rename_count : (l.rename g).count = l.count := by cases l <;> rfl

@[simp] theorem rename_minSize : (l.rename g).minSize = l.minSize := by cases l <;> rfl

@[simp] theorem rename_maxSize : (l.rename g).maxSize = l.maxSize := by cases l <;> rfl

theorem rename_find (b : Byte) : (l.rename g).find b = (l.find b).map (Option.map g) := by
  cases l with
  | node4 nd => exact congrArg Except.ok (SortedNode.rename_find nd b)
  | node16 nd => exact congrArg Except.ok (SortedNode.rename_find nd b)
  | node48 nd => exact Node48.rename_find nd b
  | node256 nd => exact congrArg Except.ok (Node256.rename_read nd b)

theorem rename_insert (b : Byte) (c : Addr) :
    (l.rename g).insert b (g c) = (l.insert b c).map (rename g) := by
  cases l with
  | node4 nd =>
      refine (congrArg (Except.map node4) (SortedNode.rename_insert nd b c)).trans ?_
      show _ = ((nd.insert b c).map node4).map (rename g)
      rcases nd.insert b c with fault | nd' <;> rfl
  | node16 nd =>
      refine (congrArg (Except.map node16) (SortedNode.rename_insert nd b c)).trans ?_
      show _ = ((nd.insert b c).map node16).map (rename g)
      rcases nd.insert b c with fault | nd' <;> rfl
  | node48 nd =>
      refine (congrArg (Except.map node48) (Node48.rename_insert nd b c)).trans ?_
      show _ = ((nd.insert b c).map node48).map (rename g)
      rcases nd.insert b c with fault | nd' <;> rfl
  | node256 nd => exact congrArg (fun nd' => Except.ok (node256 nd')) (Node256.rename_insert nd b c)

theorem rename_erase (b : Byte) :
    (l.rename g).erase b = (l.erase b).map (Prod.map (Option.map g) (rename g)) := by
  cases l with
  | node4 nd =>
      refine (congrArg (Except.map (Prod.map id node4)) (SortedNode.rename_erase nd b)).trans ?_
      show _ = ((nd.erase b).map (Prod.map id node4)).map (Prod.map (Option.map g) (rename g))
      rcases nd.erase b with fault | nd' <;> rfl
  | node16 nd =>
      refine (congrArg (Except.map (Prod.map id node16)) (SortedNode.rename_erase nd b)).trans ?_
      show _ = ((nd.erase b).map (Prod.map id node16)).map (Prod.map (Option.map g) (rename g))
      rcases nd.erase b with fault | nd' <;> rfl
  | node48 nd =>
      refine (congrArg (Except.map (Prod.map id node48)) (Node48.rename_erase nd b)).trans ?_
      show _ = ((nd.erase b).map (Prod.map id node48)).map (Prod.map (Option.map g) (rename g))
      rcases nd.erase b with fault | nd' <;> rfl
  | node256 nd =>
      exact congrArg (fun r => Except.ok (Prod.map id node256 r)) (Node256.rename_erase nd b)

theorem rename_updateChildPtr (b : Byte) (c : Addr) :
    (l.rename g).updateChildPtr b (g c) = (l.updateChildPtr b c).map (rename g) := by
  cases l with
  | node4 nd => exact congrArg (fun nd' => Except.ok (node4 nd')) (SortedNode.rename_updateChildPtr nd b c)
  | node16 nd => exact congrArg (fun nd' => Except.ok (node16 nd')) (SortedNode.rename_updateChildPtr nd b c)
  | node48 nd =>
      refine (congrArg (Except.map node48) (Node48.rename_updateChildPtr nd b c)).trans ?_
      show _ = ((nd.updateChildPtr b c).map node48).map (rename g)
      rcases nd.updateChildPtr b c with fault | nd' <;> rfl
  | node256 nd => exact congrArg (fun nd' => Except.ok (node256 nd')) (Node256.rename_updateChildPtr nd b c)

theorem rename_extremeChild (dir : Dir) : (l.rename g).extremeChild dir = (l.extremeChild dir).map g := by
  cases dir with
  | up =>
      cases l with
      | node4 nd => exact (SortedNode.rename_extreme nd).1
      | node16 nd => exact (SortedNode.rename_extreme nd).1
      | node48 nd =>
          simp only [rename, extremeChild]
          exact (Node48.rename_extreme nd).1
      | node256 nd =>
          simp only [rename, extremeChild]
          exact (Node256.rename_extreme nd).1
  | down =>
      cases l with
      | node4 nd => exact (SortedNode.rename_extreme nd).2
      | node16 nd => exact (SortedNode.rename_extreme nd).2
      | node48 nd =>
          simp only [rename, extremeChild]
          exact (Node48.rename_extreme nd).2
      | node256 nd =>
          simp only [rename, extremeChild]
          exact (Node256.rename_extreme nd).2

theorem rename_childBeyond (dir : Dir) (b : Byte) :
    (l.rename g).childBeyond dir b = (l.childBeyond dir b).map (Option.map g) := by
  cases dir with
  | up =>
      cases l with
      | node4 nd => exact (SortedNode.rename_beyond nd b).1
      | node16 nd => exact (SortedNode.rename_beyond nd b).1
      | node48 nd =>
          simp only [rename, childBeyond]
          exact (Node48.rename_beyond nd b).1
      | node256 nd =>
          simp only [rename, childBeyond]
          exact (Node256.rename_beyond nd b).1
  | down =>
      cases l with
      | node4 nd => exact (SortedNode.rename_beyond nd b).2
      | node16 nd => exact (SortedNode.rename_beyond nd b).2
      | node48 nd =>
          simp only [rename, childBeyond]
          exact (Node48.rename_beyond nd b).2
      | node256 nd =>
          simp only [rename, childBeyond]
          exact (Node256.rename_beyond nd b).2

theorem rename_grown : (l.rename g).grown = l.grown.map (rename g) := by
  cases l with
  | node4 nd => exact congrArg (fun nd' => Except.ok (node16 nd')) (rename_ofNode4 nd)
  | node16 nd => exact congrArg (fun nd' => Except.ok (node48 nd')) (rename_ofNode16 nd)
  | node48 nd =>
      refine (congrArg (Except.map node256) (rename_node256_ofNode48 nd)).trans ?_
      show _ = ((Node256.ofNode48 nd).map node256).map (rename g)
      rcases Node256.ofNode48 nd with fault | nd' <;> rfl
  | node256 nd => rfl

theorem rename_shrunk : (l.rename g).shrunk = l.shrunk.map (rename g) := by
  cases l with
  | node4 nd => rfl
  | node16 nd => exact congrArg (fun nd' => Except.ok (node4 nd')) (rename_node4_ofNode16 nd)
  | node48 nd =>
      refine (congrArg (Except.map node16) (rename_node16_ofNode48 nd)).trans ?_
      show _ = ((Node16.ofNode48 nd).map node16).map (rename g)
      rcases Node16.ofNode48 nd with fault | nd' <;> rfl
  | node256 nd =>
      refine (congrArg (Except.map node48) (rename_ofNode256 nd)).trans ?_
      show _ = ((Node48.ofNode256 nd).map node48).map (rename g)
      rcases Node48.ofNode256 nd with fault | nd' <;> rfl

theorem rename_grownKids : (l.rename g).grownKids = l.grownKids.map (Option.map g) := by
  cases l with
  | node4 nd | node16 nd => simp [grownKids, rename, SortedNode.rename, Vector.toList_map]
  | node48 nd => exact Node48.rename_entries nd
  | node256 nd => rfl

theorem rename_shrunkKids : (l.rename g).shrunkKids = l.shrunkKids.map (Option.map g) := by
  cases l with
  | node4 nd => rfl
  | node16 nd => simp [shrunkKids, rename, SortedNode.rename, List.map_take, Vector.toList_map]
  | node48 nd => exact Node48.rename_entries nd
  | node256 nd =>
      show (nd.rename g).usedBytes.map _ = (nd.usedBytes.map _).map _
      rw [Node256.rename_usedBytes, List.map_map]
      exact List.map_congr_left fun b _ => Node256.rename_read nd b

theorem rename_members : (l.rename g).members = l.members.map (Except.map (Option.map g)) := by
  cases l with
  | node4 nd | node16 nd =>
      simp [members, rename, SortedNode.rename, List.map_take, Function.comp_def, Except.map,
        Vector.toList_map]
  | node48 nd =>
      show nd.usedBytes.map (nd.rename g).slot = (nd.usedBytes.map nd.slot).map _
      rw [List.map_map]
      exact List.map_congr_left fun b _ => Node48.rename_slot nd b
  | node256 nd =>
      show (nd.rename g).usedBytes.map _ = (nd.usedBytes.map _).map _
      rw [Node256.rename_usedBytes, List.map_map]
      exact List.map_congr_left fun b _ => congrArg Except.ok (Node256.rename_read nd b)

theorem rename_oneWay (b : Byte) (c : Addr) : (oneWay b c).rename g = oneWay b (g c) := by
  refine congrArg (fun v => node4 (SortedNode.mk 1 _ v)) ?_
  simp

end Layout

end CppArt
