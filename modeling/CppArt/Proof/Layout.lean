/-
**The four layouts implement one partial map from bytes to children.**

`Layout.child` is the map, `Layout.WF` the invariant of whichever layout it is. Every member
function is specified once for all four layouts: `find_ok`, `insert_spec`, `erase_spec`,
`updateChildPtr_spec`, `extremeChild_spec` (minimum and maximum), `childBeyond_spec` (successor and
predecessor). Growing a full node and shrinking one that has fallen below `min_size` keep the map and
the count (`grown_spec`, `shrunk_spec`), and their constructors reparent exactly the children
(`grownKids_lists`, `shrunkKids_lists`).
-/

import CppArt.Proof.SortedNode
import CppArt.Proof.IndexedNode

namespace CppArt

/-! ### The bytes in use as a list -/

theorem length_filter_finRange {size : ℕ} (p : Fin size → Bool) :
    ((List.finRange size).filter p).length = (Finset.univ.filter fun b => p b = true).card := by
  rw [← List.toFinset_card_of_nodup ((List.nodup_finRange size).filter p)]
  congr 1
  ext b
  simp

theorem pairwise_filter_finRange {size : ℕ} (p : Fin size → Bool) :
    ((List.finRange size).filter p).Pairwise (· < ·) :=
  (List.pairwise_lt_finRange size).filter p

namespace SortedNode

/-- A sorted node is determined by its entries in use, whatever its capacity. -/
theorem WF.congr {cap cap' : ℕ} {nd : SortedNode cap} {nd' : SortedNode cap'} (wf : nd.WF)
    (count : nd'.count = nd.count) (le : nd.count ≤ cap')
    (keys : ∀ i < nd.count, nd'.key i = nd.key i) (kids : ∀ i < nd.count, nd'.kid i = nd.kid i) :
    nd'.WF ∧ ∀ b, nd'.find b = nd.find b := by
  have wf' : nd'.WF := by
    refine ⟨count ▸ le, fun i j less lt => ?_, fun i lt => ?_⟩
    · rw [count] at lt
      rw [keys i (less.trans lt), keys j lt]
      exact wf.sorted i j less lt
    · rw [count] at lt
      rw [kids i lt]
      exact wf.filled i lt
  refine ⟨wf', fun b => Option.ext fun c => ?_⟩
  rw [wf'.find_eq_some, wf.find_eq_some, count]
  constructor <;> rintro ⟨i, lt, same, child⟩
  · exact ⟨i, lt, (keys i lt).symm.trans same, (kids i lt).symm.trans child⟩
  · exact ⟨i, lt, (keys i lt).trans same, (kids i lt).trans child⟩

/-- The children in use, as the constructors walk over them. -/
theorem WF.mem_take_iff {cap : ℕ} {nd : SortedNode cap} (wf : nd.WF) (x : Option Addr) :
    x ∈ nd.children.toList.take nd.count ↔ ∃ b c, x = some c ∧ nd.find b = some c := by
  constructor
  · intro member
    obtain ⟨i, inside, rfl⟩ := List.getElem_of_mem member
    have lt : i < nd.count ∧ i < cap := by simpa using inside
    obtain ⟨c, child⟩ := Option.ne_none_iff_exists'.mp (wf.filled i lt.1)
    refine ⟨nd.key i, c, ?_, by rw [wf.find_key lt.1, child]⟩
    have cell : nd.children[i]? = some (some c) := Option.join_eq_some_iff.mp child
    rw [Vector.getElem?_eq_getElem lt.2, Option.some.injEq] at cell
    simpa using cell
  · rintro ⟨b, c, rfl, found⟩
    obtain ⟨i, lt, -, child⟩ := wf.find_eq_some.mp found
    have cell : nd.children[i]? = some (some c) := Option.join_eq_some_iff.mp child
    have inside : i < cap := lt_of_lt_of_le lt wf.le
    rw [Vector.getElem?_eq_getElem inside, Option.some.injEq] at cell
    rw [← cell]
    refine List.mem_iff_getElem.mpr ⟨i, by simpa using ⟨lt, inside⟩, ?_⟩
    simp

end SortedNode

/-! ### Growing and shrinking -/

theorem Node16.ofNode4_spec {nd : Node4} (wf : nd.WF) (full : nd.count = 4) :
    (Node16.ofNode4 nd).WF ∧ ∀ b, (Node16.ofNode4 nd).find b = nd.find b := by
  refine wf.congr full.symm (by omega) (fun i lt => ?_) fun i lt => ?_
  · have inside : i < 4 := full ▸ lt
    have inside' : i < 16 := by omega
    simp [SortedNode.key, Node16.ofNode4, inside, inside']
  · have inside : i < 4 := full ▸ lt
    have inside' : i < 16 := by omega
    simp [SortedNode.kid, Node16.ofNode4, inside, inside']

theorem Node4.ofNode16_spec {nd : Node16} (wf : nd.WF) (four : nd.count = 4) :
    (Node4.ofNode16 nd).WF ∧ ∀ b, (Node4.ofNode16 nd).find b = nd.find b := by
  refine wf.congr four.symm (by omega) (fun i lt => ?_) fun i lt => ?_
  · have inside : i < 4 := four ▸ lt
    have inside' : i < 16 := by omega
    simp [SortedNode.key, Node4.ofNode16, inside, inside']
  · have inside : i < 4 := four ▸ lt
    have inside' : i < 16 := by omega
    simp [SortedNode.kid, Node4.ofNode16, inside, inside']

section FoldIndex

variable (keys : Fin 16 → Byte)

/-- The loop that fills `child_index` when a `_Node_16` grows. -/
def fillIndex (positions : List (Fin 16)) (index : ByteTable Byte) : ByteTable Byte :=
  positions.foldl (fun index i => index.write (keys i) (slotByte i)) index

theorem fillIndex_of_absent (b : Byte) : ∀ (positions : List (Fin 16)) (index : ByteTable Byte),
    (∀ i ∈ positions, keys i ≠ b) → (fillIndex keys positions index).read b = index.read b
  | [], _, _ => rfl
  | i :: positions, index, absent => by
      have rest := fillIndex_of_absent b positions (index.write (keys i) (slotByte i))
        fun j member => absent j (List.mem_cons_of_mem i member)
      have other : b ≠ keys i := fun same => absent i List.mem_cons_self same.symm
      exact rest.trans ((index.read_write (keys i) b _).trans (if_neg other))

theorem fillIndex_of_mem (distinct : Function.Injective keys) (i : Fin 16) :
    ∀ (positions : List (Fin 16)) (index : ByteTable Byte), i ∈ positions →
      (fillIndex keys positions index).read (keys i) = slotByte i
  | [], _, member => by cases member
  | j :: positions, index, member => by
      by_cases later : i ∈ positions
      · exact fillIndex_of_mem distinct i positions _ later
      · have here : i = j := (List.mem_cons.mp member).resolve_right later
        subst here
        have rest := fillIndex_of_absent keys (keys i) positions
          (index.write (keys i) (slotByte i))
          fun j memberJ same => later (distinct same ▸ memberJ)
        exact rest.trans ((index.read_write (keys i) (keys i) _).trans (if_pos rfl))

end FoldIndex

theorem Node48.ofNode16_childIndex {nd : Node16} (wf : nd.WF) (full : nd.count = 16) :
    (∀ i : Fin 16, (Node48.ofNode16 nd).childIndex.read (nd.key i.val) = slotByte i) ∧
      ∀ b, (∀ i < 16, nd.key i ≠ b) → (Node48.ofNode16 nd).childIndex.read b = emptyMarker := by
  have read : ∀ i : Fin 16, nd.keys[i] = nd.key i.val := by
    intro i
    simp [SortedNode.key]
  have unfolded : (Node48.ofNode16 nd).childIndex = fillIndex (fun i => nd.keys[i])
      (List.finRange 16) (Vector.replicate 256 emptyMarker) := rfl
  have distinct : Function.Injective fun i : Fin 16 => nd.keys[i] := by
    intro i j same
    simp only [read] at same
    exact Fin.ext (wf.key_inj (by rw [full]; exact i.isLt) (by rw [full]; exact j.isLt) same)
  constructor
  · intro i
    have filled := fillIndex_of_mem (fun i => nd.keys[i]) distinct i (List.finRange 16)
      (Vector.replicate 256 emptyMarker) (List.mem_finRange i)
    rw [unfolded]
    simpa only [read i] using filled
  · intro b absent
    rw [unfolded, fillIndex_of_absent (fun i => nd.keys[i]) b _ _ fun i _ => by
      rw [read i]
      exact absent i.val i.isLt]
    simp

theorem Node48.ofNode16_spec {nd : Node16} (wf : nd.WF) (full : nd.count = 16) :
    (Node48.ofNode16 nd).WF ∧ ∀ b, (Node48.ofNode16 nd).child b = nd.find b := by
  obtain ⟨present, absent⟩ := Node48.ofNode16_childIndex wf full
  have cells : ∀ i : ℕ, (Node48.ofNode16 nd).children[i]? =
      if i < 16 then some (nd.kid i) else if i < 48 then some none else none := by
    intro i
    by_cases small : i < 16
    · have inside : i < 48 := by omega
      simp [Node48.ofNode16, SortedNode.kid, small, inside]
    · by_cases inside : i < 48
      · simp [Node48.ofNode16, small, inside]
      · simp [Node48.ofNode16, small, inside]
  have number : ∀ i : Fin 16, (slotByte i).val = i.val := slotByte_val (by decide)
  have used : ∀ b, (Node48.ofNode16 nd).used b = true ↔ ∃ i < 16, nd.key i = b := by
    intro b
    rw [Node48.used_iff]
    constructor
    · intro marked
      by_contra none
      push Not at none
      exact marked (absent b none)
    · rintro ⟨i, lt, rfl⟩
      rw [present ⟨i, lt⟩]
      exact Node48.slot_ne_marker ⟨i, by omega⟩
  have entries : ∀ i < 16, (Node48.ofNode16 nd).children[
      ((Node48.ofNode16 nd).childIndex.read (nd.key i)).val]? = some (nd.kid i) := by
    intro i lt
    rw [present ⟨i, lt⟩, cells, number, if_pos lt]
  have children : ∀ b, (Node48.ofNode16 nd).child b = nd.find b := by
    intro b
    by_cases inUse : (Node48.ofNode16 nd).used b = true
    · obtain ⟨i, lt, rfl⟩ := (used b).mp inUse
      rw [Node48.child, if_pos inUse, Node48.entry, entries i lt, wf.find_key (by omega),
        Option.join_some]
    · rw [Node48.child, if_neg inUse]
      refine (wf.find_eq_none.mpr fun i lt same => inUse ((used b).mpr ⟨i, by omega, same⟩)).symm
  refine ⟨⟨?_, ?_, ?_, ?_⟩, children⟩
  · intro b inUse
    obtain ⟨i, lt, rfl⟩ := (used b).mp inUse
    obtain ⟨c, child⟩ := Option.ne_none_iff_exists'.mp (wf.filled i (by omega))
    exact ⟨c, by rw [entries i lt, child]⟩
  · intro b b' inUse inUse' same
    obtain ⟨i, lt, rfl⟩ := (used b).mp inUse
    obtain ⟨j, lt', rfl⟩ := (used b').mp inUse'
    rw [present ⟨i, lt⟩, present ⟨j, lt'⟩] at same
    have equal : i = j := (number ⟨i, lt⟩).symm.trans ((congrArg Fin.val same).trans (number ⟨j, lt'⟩))
    rw [equal]
  · intro i c cell
    rw [cells] at cell
    split_ifs at cell with small inside
    · exact ⟨nd.key i, (used _).mpr ⟨i, small, rfl⟩, by rw [present ⟨i, small⟩, number]⟩
    · cases cell
  · have kept : (Node48.ofNode16 nd).count = nd.count := full.symm
    rw [kept, wf.count_eq]
    refine congrArg Finset.card (Finset.filter_congr fun b _ => ?_)
    rw [used b, Ne, wf.find_eq_none, full]
    push Not
    exact Iff.rfl

theorem Node16.ofNode48_spec {nd : Node48} (wf : nd.WF) (sixteen : nd.count = 16) :
    ∃ nd' : Node16, Node16.ofNode48 nd = .ok nd' ∧ nd'.WF ∧ nd'.count = 16 ∧
      ∀ b, nd'.find b = nd.child b := by
  have length : nd.usedBytes.length = 16 := by
    rw [Node48.usedBytes, length_filter_finRange, ← wf.count, sixteen]
  have inRange : nd.inRange = true := by
    refine List.all_eq_true.mpr fun b _ => ?_
    by_cases inUse : nd.used b = true
    · simpa [inUse] using wf.index_lt inUse
    · simp [inUse]
  have member : ∀ b, b ∈ nd.usedBytes ↔ nd.used b = true := by
    intro b
    simp [Node48.usedBytes]
  let nd' : Node16 := ⟨16, Vector.ofFn fun i => (nd.usedBytes[i.val]?).getD 0,
    Vector.ofFn fun i => (nd.usedBytes[i.val]?).bind nd.entry⟩
  have key : ∀ i (lt : i < 16), nd'.key i = nd.usedBytes[i] := by
    intro i lt
    have within : i < nd.usedBytes.length := length ▸ lt
    simp [nd', SortedNode.key, lt, within]
  have kid : ∀ i (lt : i < 16), nd'.kid i = nd.entry (nd.usedBytes[i]) := by
    intro i lt
    have within : i < nd.usedBytes.length := length ▸ lt
    simp [nd', SortedNode.kid, lt, within]
  have inUse : ∀ i (lt : i < 16), nd.used (nd.usedBytes[i]) = true := fun i lt =>
    (member _).mp (List.getElem_mem _)
  have wf' : nd'.WF := by
    refine ⟨le_rfl, fun i j less lt => ?_, fun i lt => ?_⟩
    · have ltJ : j < 16 := lt
      rw [key i (less.trans ltJ), key j ltJ]
      exact List.pairwise_iff_getElem.mp (pairwise_filter_finRange nd.used) i j _ _ less
    · have ltI : i < 16 := lt
      obtain ⟨c, cell⟩ := wf.slots _ (inUse i ltI)
      rw [kid i ltI, Node48.entry, cell]
      exact Option.some_ne_none c
  refine ⟨nd', if_pos ⟨inRange, length.le⟩, wf', rfl, fun b => Option.ext fun c => ?_⟩
  rw [wf'.find_eq_some]
  constructor
  · rintro ⟨i, lt, sameKey, sameKid⟩
    have ltI : i < 16 := lt
    rw [key i ltI] at sameKey
    rw [kid i ltI, sameKey] at sameKid
    rw [Node48.child, if_pos (sameKey ▸ inUse i ltI), sameKid]
  · intro found
    have used := (wf.used_of_child found).1
    obtain ⟨i, within, same⟩ := List.getElem_of_mem ((member b).mpr used)
    have lt : i < 16 := length ▸ within
    refine ⟨i, lt, (key i lt).trans same, ?_⟩
    rw [kid i lt, same]
    rwa [Node48.child, if_pos used] at found

theorem Node256.ofNode48_spec {nd : Node48} (wf : nd.WF) (full : nd.count = 48) :
    ∃ nd' : Node256, Node256.ofNode48 nd = .ok nd' ∧ nd'.WF ∧ nd'.count = 48 ∧
      ∀ b, nd'.find b = nd.child b := by
  have inRange : nd.inRange = true := by
    refine List.all_eq_true.mpr fun b _ => ?_
    by_cases inUse : nd.used b = true
    · simpa [inUse] using wf.index_lt inUse
    · simp [inUse]
  let nd' : Node256 := ⟨48, Vector.ofFn fun b => if nd.used b then nd.entry b else none⟩
  have children : ∀ b, nd'.find b = nd.child b := by
    intro b
    simp [nd', Node256.find, Node48.child]
  refine ⟨nd', if_pos inRange, ⟨?_⟩, rfl, children⟩
  simp only [children]
  rw [← wf.count_eq, full]

theorem Node48.ofNode256_spec {nd : Node256} (wf : nd.WF) (fortyEight : nd.count = 48) :
    ∃ nd' : Node48, Node48.ofNode256 nd = .ok nd' ∧ nd'.WF ∧ nd'.count = 48 ∧
      ∀ b, nd'.child b = nd.find b := by
  have member : ∀ b, b ∈ nd.usedBytes ↔ nd.used b = true := by
    intro b
    simp [Node256.usedBytes]
  have nodup : nd.usedBytes.Nodup := (List.nodup_finRange 256).filter nd.used
  have length : nd.usedBytes.length = 48 := by
    rw [Node256.usedBytes, length_filter_finRange, ← fortyEight, wf.count]
    congr 1
    ext b
    simp only [Finset.mem_filter, Finset.mem_univ, true_and, Node256.used_iff]
  let nd' : Node48 := ⟨48,
    Vector.ofFn fun b => if nd.used b then Fin.ofNat 256 (nd.usedBytes.idxOf b) else emptyMarker,
    Vector.ofFn fun pos => (nd.usedBytes[pos.val]?).bind nd.children.read⟩
  have rank : ∀ b, nd.used b = true → nd.usedBytes.idxOf b < 48 := fun b inUse =>
    length ▸ List.idxOf_lt_length_of_mem ((member b).mpr inUse)
  have index : ∀ b, nd.used b = true →
      nd'.childIndex.read b = Fin.ofNat 256 (nd.usedBytes.idxOf b) := by
    intro b inUse
    simp [nd', inUse]
  have indexVal : ∀ b, nd.used b = true → (nd'.childIndex.read b).val = nd.usedBytes.idxOf b := by
    intro b inUse
    rw [index b inUse, Fin.val_ofNat]
    exact Nat.mod_eq_of_lt ((rank b inUse).trans (by decide))
  have used : ∀ b, nd'.used b = nd.used b := by
    intro b
    rw [Bool.eq_iff_iff, Node48.used_iff]
    by_cases inUse : nd.used b = true
    · simp only [inUse, iff_true]
      intro same
      have value := congrArg Fin.val same
      rw [indexVal b inUse] at value
      have bound := rank b inUse
      simp only [emptyMarker] at value
      have sixtyThree : ((63 : Byte) : ℕ) = 63 := rfl
      omega
    · simp [nd', inUse]
  have cells : ∀ b, nd.used b = true → nd'.children[(nd'.childIndex.read b).val]? = some (nd.find b) := by
    intro b inUse
    have bound := rank b inUse
    have within : nd.usedBytes.idxOf b < nd.usedBytes.length := length ▸ bound
    rw [indexVal b inUse]
    simp [nd', bound, Node256.find, List.getElem?_eq_getElem within]
  have children : ∀ b, nd'.child b = nd.find b := by
    intro b
    rw [Node48.child, used b]
    by_cases inUse : nd.used b = true
    · rw [if_pos inUse, Node48.entry, cells b inUse]
      rfl
    · rw [if_neg inUse]
      by_contra present
      exact inUse (Node256.used_iff.mpr (Ne.symm present))
  refine ⟨nd', if_pos length.le, ⟨?_, ?_, ?_, ?_⟩, rfl, children⟩
  · intro b inUse
    rw [used b] at inUse
    obtain ⟨c, found⟩ := Option.ne_none_iff_exists'.mp (Node256.used_iff.mp inUse)
    exact ⟨c, by rw [cells b inUse, found]⟩
  · intro b b' inUse inUse' same
    rw [used b] at inUse
    rw [used b'] at inUse'
    have value := congrArg Fin.val same
    rw [indexVal b inUse, indexVal b' inUse'] at value
    exact (List.idxOf_inj ((member b).mpr inUse)).mp value
  · intro i c cell
    have within : i < nd.usedBytes.length := length ▸ (Vector.getElem?_eq_some_iff.mp cell).1
    have inUse := (member _).mp (List.getElem_mem within)
    exact ⟨nd.usedBytes[i], (used _).trans inUse,
      (indexVal _ inUse).trans (nodup.idxOf_getElem i within)⟩
  · have kept : nd'.count = nd.count := fortyEight.symm
    rw [kept, wf.count]
    refine congrArg Finset.card (Finset.filter_congr fun b _ => ?_)
    rw [used b, Node256.used_iff]

/-! ### What the constructors walk over -/

/-- The whole array of a full node. -/
theorem SortedNode.WF.mem_children_iff {cap : ℕ} {nd : SortedNode cap} (wf : nd.WF)
    (full : nd.count = cap) (x : Option Addr) :
    x ∈ nd.children.toList ↔ ∃ b c, x = some c ∧ nd.find b = some c := by
  have whole : nd.children.toList.take nd.count = nd.children.toList :=
    List.take_of_length_le (by simp [full])
  rw [← whole]
  exact wf.mem_take_iff x

/-- The slots of the bytes in use. -/
theorem Node48.WF.mem_entries_iff {nd : Node48} (wf : nd.WF) (x : Option Addr) :
    x ∈ nd.usedBytes.map nd.entry ↔ ∃ b c, x = some c ∧ nd.child b = some c := by
  rw [List.mem_map]
  constructor
  · rintro ⟨b, member, rfl⟩
    have inUse : nd.used b = true := by simpa [Node48.usedBytes] using member
    obtain ⟨c, found, -⟩ := wf.child_of_used inUse
    rw [Node48.child, if_pos inUse] at found
    exact ⟨b, c, found, by rw [Node48.child, if_pos inUse, found]⟩
  · rintro ⟨b, c, rfl, found⟩
    have inUse := (wf.used_of_child found).1
    rw [Node48.child, if_pos inUse] at found
    exact ⟨b, by simpa [Node48.usedBytes] using inUse, found⟩

theorem Node256.mem_reads_iff (nd : Node256) (x : Option Addr) :
    x ∈ nd.usedBytes.map nd.children.read ↔ ∃ b c, x = some c ∧ nd.find b = some c := by
  rw [List.mem_map]
  constructor
  · rintro ⟨b, member, rfl⟩
    have inUse : nd.used b = true := by simpa [Node256.usedBytes] using member
    obtain ⟨c, found⟩ := Option.ne_none_iff_exists'.mp (Node256.used_iff.mp inUse)
    exact ⟨b, c, found, found⟩
  · rintro ⟨b, c, rfl, found⟩
    have inUse : nd.used b = true := Node256.used_iff.mpr (by simp [found])
    exact ⟨b, by simpa [Node256.usedBytes] using inUse, found⟩

/-! ### All four layouts at once -/

namespace Layout

/-- The child of a byte. -/
def child : Layout → Byte → Option Addr
  | .node4 nd => nd.find
  | .node16 nd => nd.find
  | .node48 nd => nd.child
  | .node256 nd => nd.find

/-- **The invariant of a layout.** -/
def WF : Layout → Prop
  | .node4 nd => nd.WF
  | .node16 nd => nd.WF
  | .node48 nd => nd.WF
  | .node256 nd => nd.WF

/-- The bytes with a child. -/
def bytes (l : Layout) : Set Byte := {b | l.child b ≠ none}

@[simp] theorem mem_bytes {l : Layout} {b : Byte} : b ∈ l.bytes ↔ l.child b ≠ none := Iff.rfl

theorem mem_bytes_of_child {l : Layout} {b : Byte} {c : Addr} (found : l.child b = some c) :
    b ∈ l.bytes := by
  simp [found]

/-- `k` children are a number the layout is used for. -/
def Fits (l : Layout) (k : ℕ) : Prop :=
  0 < k ∧ k ≤ l.maxSize ∧ (l.getType ≠ .node4 → l.minSize ≤ k)

/-- The walk of a grow or shrink constructor visits exactly the children. -/
def Lists (l : Layout) (kids : List (Option Addr)) : Prop :=
  ∀ x, x ∈ kids ↔ ∃ b c, x = some c ∧ l.child b = some c

theorem Fits.getType {l : Layout} {k : ℕ} (fits : l.Fits k) : l.getType = typeFor k := by
  obtain ⟨-, le, ge⟩ := fits
  cases l <;> simp only [Layout.getType, maxSize, minSize, typeFor] at * <;> split_ifs <;>
    first | rfl | (simp at ge; omega)

/-- Two layouts of one type are used for the same numbers of children. -/
theorem Fits.of_getType {l l' : Layout} {k : ℕ} (fits : l.Fits k) (same : l'.getType = l.getType) :
    l'.Fits k := by
  cases l <;> cases l' <;> simp_all [Fits, Layout.getType, maxSize, minSize]

/-- A layout that is not the smallest keeps two children and more when it loses one. -/
theorem Fits.two_le {l : Layout} (fits : l.Fits (l.count + 1)) (notFirst : l.getType ≠ .node4) :
    2 ≤ l.count := by
  have enough := fits.2.2 notFirst
  cases l with
  | node4 nd => exact absurd rfl notFirst
  | node16 nd | node48 nd | node256 nd => simp only [minSize] at enough; omega

/-- A layout that fits and has two children or more is not below its minimum. -/
theorem Fits.minSize_le {l : Layout} (fits : l.Fits l.count) (two : 2 ≤ l.count) :
    l.minSize ≤ l.count := by
  obtain ⟨-, -, ge⟩ := fits
  cases l with
  | node4 nd => exact two
  | node16 nd | node48 nd | node256 nd => exact ge NodeType.noConfusion

/-- A `_Node_4` is below its minimum with one child. -/
theorem count_lt_minSize_iff {l : Layout} (first : l.getType = .node4) :
    l.count < l.minSize ↔ l.count < 2 := by
  cases l with
  | node4 nd => exact Iff.rfl
  | node16 nd | node48 nd | node256 nd => cases first

theorem two_le_minSize (l : Layout) : 2 ≤ l.minSize := by
  cases l <;> simp [minSize]

section Specs

variable {l : Layout} (wf : l.WF)

include wf

theorem find_ok (b : Byte) : l.find b = .ok (l.child b) := by
  cases l with
  | node4 nd => rfl
  | node16 nd => rfl
  | node48 nd => exact Node48.WF.find_ok wf b
  | node256 nd => rfl

theorem count_eq : l.count = (Finset.univ.filter fun b => l.child b ≠ none).card := by
  cases l with
  | node4 nd => exact SortedNode.WF.count_eq wf
  | node16 nd => exact SortedNode.WF.count_eq wf
  | node48 nd => exact Node48.WF.count_eq wf
  | node256 nd => exact Node256.WF.count wf

/-- A `_Node_256` in which a byte is absent has room. -/
theorem count_lt_of_absent {b : Byte} (absent : l.child b = none) : l.count < 256 := by
  have outside : b ∉ Finset.univ.filter fun b => l.child b ≠ none := by simp [absent]
  have proper := Finset.card_lt_univ_of_notMem outside
  rw [Fintype.card_fin] at proper
  rw [count_eq wf]
  exact proper

theorem count_pos_of_child {b : Byte} {c : Addr} (found : l.child b = some c) : 0 < l.count := by
  rw [count_eq wf]
  exact Finset.card_pos.mpr ⟨b, by simp [found]⟩

theorem exists_child (nonempty : 0 < l.count) : ∃ b c, l.child b = some c := by
  rw [count_eq wf] at nonempty
  obtain ⟨b, inside⟩ := Finset.card_pos.mp nonempty
  obtain ⟨c, found⟩ := Option.ne_none_iff_exists'.mp (Finset.mem_filter.mp inside).2
  exact ⟨b, c, found⟩

/-- A node with one child has it at one byte only. -/
theorem eq_of_count_one (one : l.count = 1) {b b' : Byte} (inside : b ∈ l.bytes)
    (inside' : b' ∈ l.bytes) : b = b' := by
  rw [count_eq wf] at one
  exact Finset.card_le_one.mp one.le b (by simpa using inside) b' (by simpa using inside')

/-- A node with two or more children has one besides any given byte. -/
theorem exists_other (two : 2 ≤ l.count) (b : Byte) : ∃ b' c, b' ≠ b ∧ l.child b' = some c := by
  rw [count_eq wf] at two
  obtain ⟨b', inside, other⟩ := Finset.exists_mem_ne two b
  obtain ⟨c, found⟩ := Option.ne_none_iff_exists'.mp (Finset.mem_filter.mp inside).2
  exact ⟨b', c, other, found⟩

theorem two_le_count {b b' : Byte} (inside : b ∈ l.bytes) (inside' : b' ∈ l.bytes)
    (other : b ≠ b') : 2 ≤ l.count := by
  rw [count_eq wf]
  exact Finset.one_lt_card.mpr ⟨b, by simpa using inside, b', by simpa using inside', other⟩

/-- **`insert` of an absent byte.** -/
theorem insert_spec {b : Byte} (node : Addr) (room : l.count < l.maxSize)
    (absent : l.child b = none) :
    ∃ l', l.insert b node = .ok l' ∧ l'.WF ∧ l'.getType = l.getType ∧ l'.count = l.count + 1 ∧
      ∀ b', l'.child b' = if b' = b then some node else l.child b' := by
  cases l with
  | node4 nd =>
      obtain ⟨nd', run, wf', count, children⟩ := SortedNode.WF.insert_spec wf node room absent
      exact ⟨.node4 nd', by simp only [insert, run, Except.map], wf', rfl, count, children⟩
  | node16 nd =>
      obtain ⟨nd', run, wf', count, children⟩ := SortedNode.WF.insert_spec wf node room absent
      exact ⟨.node16 nd', by simp only [insert, run, Except.map], wf', rfl, count, children⟩
  | node48 nd =>
      obtain ⟨nd', run, wf', count, children⟩ := Node48.WF.insert_spec wf node room absent
      exact ⟨.node48 nd', by simp only [insert, run, Except.map], wf', rfl, count, children⟩
  | node256 nd =>
      obtain ⟨wf', count, children⟩ := Node256.WF.insert_spec wf node absent
      exact ⟨.node256 (nd.insert b node), rfl, wf', rfl, count, children⟩

/-- **`erase` of a present byte.** -/
theorem erase_spec {b : Byte} {c : Addr} (present : l.child b = some c) :
    ∃ l', l.erase b = .ok (some c, l') ∧ l'.WF ∧ l'.getType = l.getType ∧
      l'.count + 1 = l.count ∧ ∀ b', l'.child b' = if b' = b then none else l.child b' := by
  cases l with
  | node4 nd =>
      obtain ⟨nd', run, wf', count, children⟩ := SortedNode.WF.erase_spec wf present
      exact ⟨.node4 nd', by simp only [erase, run, Except.map, Prod.map, id], wf', rfl, count, children⟩
  | node16 nd =>
      obtain ⟨nd', run, wf', count, children⟩ := SortedNode.WF.erase_spec wf present
      exact ⟨.node16 nd', by simp only [erase, run, Except.map, Prod.map, id], wf', rfl, count,
        children⟩
  | node48 nd =>
      obtain ⟨nd', run, wf', count, children⟩ := Node48.WF.erase_spec wf present
      exact ⟨.node48 nd', by simp only [erase, run, Except.map, Prod.map, id], wf', rfl, count,
        children⟩
  | node256 nd =>
      obtain ⟨nd', run, wf', count, children⟩ := Node256.WF.erase_spec wf present
      exact ⟨.node256 nd', by simp only [erase, run, Prod.map, id], wf', rfl, count, children⟩

/-- **`update_child_ptr` of a present byte.** -/
theorem updateChildPtr_spec {b : Byte} {c : Addr} (node : Addr) (present : l.child b = some c) :
    ∃ l', l.updateChildPtr b node = .ok l' ∧ l'.WF ∧ l'.getType = l.getType ∧
      l'.count = l.count ∧ ∀ b', l'.child b' = if b' = b then some node else l.child b' := by
  cases l with
  | node4 nd =>
      obtain ⟨wf', count, children⟩ := SortedNode.WF.updateChildPtr_spec wf node present
      exact ⟨_, rfl, wf', rfl, count, children⟩
  | node16 nd =>
      obtain ⟨wf', count, children⟩ := SortedNode.WF.updateChildPtr_spec wf node present
      exact ⟨_, rfl, wf', rfl, count, children⟩
  | node48 nd =>
      obtain ⟨nd', run, wf', count, children⟩ :=
        Node48.WF.updateChildPtr_spec wf node present
      exact ⟨.node48 nd', by simp only [updateChildPtr, run, Except.map], wf', rfl, count, children⟩
  | node256 nd =>
      obtain ⟨wf', count, children⟩ := Node256.WF.updateChildPtr_spec wf node present
      exact ⟨_, rfl, wf', rfl, count, children⟩

/-- **`minimum` and `maximum` descend into the first child of their direction.** -/
theorem extremeChild_spec (nonempty : 0 < l.count) (dir : Dir) :
    ∃ b c, l.extremeChild dir = .ok c ∧ l.child b = some c ∧ dir.IsFirst l.bytes b := by
  obtain ⟨b₀, c₀, found₀⟩ := exists_child wf nonempty
  cases dir with
  | up =>
      have lift : ∀ {b : Byte} {c : Addr}, l.extremeChild .up = .ok c → l.child b = some c →
          (∀ b', l.child b' ≠ none → b ≤ b') →
          ∃ b c, l.extremeChild .up = .ok c ∧ l.child b = some c ∧ Dir.up.IsFirst l.bytes b :=
        fun run found least => ⟨_, _, run, found, Dir.isFirst_up_iff.mpr
          ⟨mem_bytes_of_child found, fun b' inside => least b' inside⟩⟩
      cases l with
      | node4 nd =>
          obtain ⟨b, c, run, found, least⟩ := SortedNode.WF.minimumChild_spec wf nonempty
          exact lift run found least
      | node16 nd =>
          obtain ⟨b, c, run, found, least⟩ := SortedNode.WF.minimumChild_spec wf nonempty
          exact lift run found least
      | node48 nd =>
          obtain ⟨b, search, inUse, least⟩ := find?_used (Node48.WF.used_of_child wf found₀).1
          obtain ⟨c, found, -⟩ := Node48.WF.child_of_used wf inUse
          refine lift (b := b) (c := c) ?_ found fun b' inside =>
            least b' ((Node48.WF.child_ne_none wf).mp inside)
          show Node48.minimumChild nd = _
          unfold Node48.minimumChild
          rw [search]
          exact Node48.WF.slotAt_ok wf found
      | node256 nd =>
          have inUse₀ := Node256.used_iff.mpr (mem_bytes_of_child found₀)
          obtain ⟨b, search, inUse, least⟩ := find?_used inUse₀
          obtain ⟨c, found⟩ := Option.ne_none_iff_exists'.mp (Node256.used_iff.mp inUse)
          refine lift (b := b) (c := c) ?_ found fun b' inside =>
            least b' (Node256.used_iff.mpr inside)
          show Node256.minimumChild nd = _
          unfold Node256.minimumChild
          rw [search]
          exact Node256.childAt_ok found
  | down =>
      have lift : ∀ {b : Byte} {c : Addr}, l.extremeChild .down = .ok c → l.child b = some c →
          (∀ b', l.child b' ≠ none → b' ≤ b) →
          ∃ b c, l.extremeChild .down = .ok c ∧ l.child b = some c ∧ Dir.down.IsFirst l.bytes b :=
        fun run found greatest => ⟨_, _, run, found, Dir.isFirst_down_iff.mpr
          ⟨mem_bytes_of_child found, fun b' inside => greatest b' inside⟩⟩
      cases l with
      | node4 nd =>
          obtain ⟨b, c, run, found, greatest⟩ := SortedNode.WF.maximumChild_spec wf nonempty
          exact lift run found greatest
      | node16 nd =>
          obtain ⟨b, c, run, found, greatest⟩ := SortedNode.WF.maximumChild_spec wf nonempty
          exact lift run found greatest
      | node48 nd =>
          obtain ⟨b, search, inUse, greatest⟩ := findRev?_used (Node48.WF.used_of_child wf found₀).1
          obtain ⟨c, found, -⟩ := Node48.WF.child_of_used wf inUse
          refine lift (b := b) (c := c) ?_ found fun b' inside =>
            greatest b' ((Node48.WF.child_ne_none wf).mp inside)
          show Node48.maximumChild nd = _
          unfold Node48.maximumChild
          rw [search]
          exact Node48.WF.slotAt_ok wf found
      | node256 nd =>
          have inUse₀ := Node256.used_iff.mpr (mem_bytes_of_child found₀)
          obtain ⟨b, search, inUse, greatest⟩ := findRev?_used inUse₀
          obtain ⟨c, found⟩ := Option.ne_none_iff_exists'.mp (Node256.used_iff.mp inUse)
          refine lift (b := b) (c := c) ?_ found fun b' inside =>
            greatest b' (Node256.used_iff.mpr inside)
          show Node256.maximumChild nd = _
          unfold Node256.maximumChild
          rw [search]
          exact Node256.childAt_ok found

/-- **`successor` and `predecessor` descend into the next child of their direction**, if there is
one beyond the byte. -/
theorem childBeyond_spec (dir : Dir) (b₀ : Byte) :
    (l.childBeyond dir b₀ = .ok none ∧ ∀ b ∈ l.bytes, ¬ dir.before b₀ b) ∨
      ∃ b c, l.childBeyond dir b₀ = .ok (some c) ∧ l.child b = some c ∧
        dir.IsFirst {b' | b' ∈ l.bytes ∧ dir.before b₀ b'} b := by
  cases dir with
  | up =>
      have lift : ∀ {b : Byte} {c : Addr}, l.childBeyond .up b₀ = .ok (some c) →
          l.child b = some c → b₀ < b → (∀ b', l.child b' ≠ none → b₀ < b' → b ≤ b') →
          ∃ b c, l.childBeyond .up b₀ = .ok (some c) ∧ l.child b = some c ∧
            Dir.up.IsFirst {b' | b' ∈ l.bytes ∧ Dir.up.before b₀ b'} b :=
        fun run found above least => ⟨_, _, run, found, Dir.isFirst_up_iff.mpr
          ⟨⟨mem_bytes_of_child found, above⟩, fun b' inside => least b' inside.1 inside.2⟩⟩
      cases l with
      | node4 nd =>
          rcases SortedNode.WF.successorChild_spec wf b₀ with none | ⟨b, c, run, found, above, least⟩
          · exact .inl none
          · exact .inr (lift run found above least)
      | node16 nd =>
          rcases SortedNode.WF.successorChild_spec wf b₀ with none | ⟨b, c, run, found, above, least⟩
          · exact .inl none
          · exact .inr (lift run found above least)
      | node48 nd =>
          rcases find?_above nd.used b₀ with ⟨search, none⟩ | ⟨b, search, inUse, above, least⟩
          · refine .inl ⟨?_, fun b inside => none b ((Node48.WF.child_ne_none wf).mp inside)⟩
            show Node48.successorChild nd b₀ = _
            unfold Node48.successorChild
            rw [search]
          · obtain ⟨c, found, -⟩ := Node48.WF.child_of_used wf inUse
            refine .inr (lift (b := b) (c := c) ?_ found above fun b' inside =>
              least b' ((Node48.WF.child_ne_none wf).mp inside))
            show Node48.successorChild nd b₀ = _
            unfold Node48.successorChild
            rw [search]
            simp only [Node48.WF.slotAt_ok wf found, Except.map]
      | node256 nd =>
          rcases find?_above nd.used b₀ with ⟨search, none⟩ | ⟨b, search, inUse, above, least⟩
          · refine .inl ⟨?_, fun b inside => none b (Node256.used_iff.mpr inside)⟩
            show Node256.successorChild nd b₀ = _
            unfold Node256.successorChild
            rw [search]
          · obtain ⟨c, found⟩ := Option.ne_none_iff_exists'.mp (Node256.used_iff.mp inUse)
            refine .inr (lift (b := b) (c := c) ?_ found above fun b' inside =>
              least b' (Node256.used_iff.mpr inside))
            show Node256.successorChild nd b₀ = _
            unfold Node256.successorChild
            rw [search]
            simp only [Node256.childAt_ok found, Except.map]
  | down =>
      have lift : ∀ {b : Byte} {c : Addr}, l.childBeyond .down b₀ = .ok (some c) →
          l.child b = some c → b < b₀ → (∀ b', l.child b' ≠ none → b' < b₀ → b' ≤ b) →
          ∃ b c, l.childBeyond .down b₀ = .ok (some c) ∧ l.child b = some c ∧
            Dir.down.IsFirst {b' | b' ∈ l.bytes ∧ Dir.down.before b₀ b'} b :=
        fun run found under greatest => ⟨_, _, run, found, Dir.isFirst_down_iff.mpr
          ⟨⟨mem_bytes_of_child found, under⟩, fun b' inside => greatest b' inside.1 inside.2⟩⟩
      cases l with
      | node4 nd =>
          rcases SortedNode.WF.predecessorChild_spec wf b₀ with none | ⟨b, c, run, found, under, greatest⟩
          · exact .inl none
          · exact .inr (lift run found under greatest)
      | node16 nd =>
          rcases SortedNode.WF.predecessorChild_spec wf b₀ with none | ⟨b, c, run, found, under, greatest⟩
          · exact .inl none
          · exact .inr (lift run found under greatest)
      | node48 nd =>
          rcases findRev?_below nd.used b₀ with ⟨search, none⟩ | ⟨b, search, inUse, under, greatest⟩
          · refine .inl ⟨?_, fun b inside => none b ((Node48.WF.child_ne_none wf).mp inside)⟩
            show Node48.predecessorChild nd b₀ = _
            unfold Node48.predecessorChild
            rw [search]
          · obtain ⟨c, found, -⟩ := Node48.WF.child_of_used wf inUse
            refine .inr (lift (b := b) (c := c) ?_ found under fun b' inside =>
              greatest b' ((Node48.WF.child_ne_none wf).mp inside))
            show Node48.predecessorChild nd b₀ = _
            unfold Node48.predecessorChild
            rw [search]
            simp only [Node48.WF.slotAt_ok wf found, Except.map]
      | node256 nd =>
          rcases findRev?_below nd.used b₀ with ⟨search, none⟩ | ⟨b, search, inUse, under, greatest⟩
          · refine .inl ⟨?_, fun b inside => none b (Node256.used_iff.mpr inside)⟩
            show Node256.predecessorChild nd b₀ = _
            unfold Node256.predecessorChild
            rw [search]
          · obtain ⟨c, found⟩ := Option.ne_none_iff_exists'.mp (Node256.used_iff.mp inUse)
            refine .inr (lift (b := b) (c := c) ?_ found under fun b' inside =>
              greatest b' (Node256.used_iff.mpr inside))
            show Node256.predecessorChild nd b₀ = _
            unfold Node256.predecessorChild
            rw [search]
            simp only [Node256.childAt_ok found, Except.map]

end Specs

/-! ### Changing the layout -/

/-- **`grow` keeps the children.** -/
theorem grown_spec {l : Layout} (wf : l.WF) (full : l.count = l.maxSize) (notLast : l.count < 256) :
    ∃ l', l.grown = .ok l' ∧ l'.WF ∧ l'.count = l.count ∧ l'.Fits (l.count + 1) ∧
      ∀ b, l'.child b = l.child b := by
  cases l with
  | node4 nd =>
      obtain ⟨wf', children⟩ := Node16.ofNode4_spec wf full
      refine ⟨.node16 (.ofNode4 nd), rfl, wf', full.symm, ?_, children⟩
      have count : nd.count = 4 := full
      simp [Fits, Layout.count, Layout.getType, maxSize, minSize, count]
  | node16 nd =>
      obtain ⟨wf', children⟩ := Node48.ofNode16_spec wf full
      have count : nd.count = 16 := full
      refine ⟨.node48 (.ofNode16 nd), rfl, wf', full.symm, ?_, children⟩
      simp [Fits, Layout.count, Layout.getType, maxSize, minSize, count]
  | node48 nd =>
      obtain ⟨nd', run, wf', count, children⟩ := Node256.ofNode48_spec wf full
      have before : nd.count = 48 := full
      refine ⟨.node256 nd', by simp only [grown, run, Except.map], wf', count.trans before.symm, ?_,
        children⟩
      simp [Fits, Layout.count, Layout.getType, maxSize, minSize, before]
  | node256 nd =>
      have count : nd.count = 256 := full
      exact absurd notLast (by simp [Layout.count, count])

/-- The constructor that `grow` calls reparents the children. -/
theorem grownKids_lists {l : Layout} (wf : l.WF) (full : l.count = l.maxSize)
    (notLast : l.count < 256) : l.Lists l.grownKids := by
  cases l with
  | node4 nd => exact SortedNode.WF.mem_children_iff wf full
  | node16 nd => exact SortedNode.WF.mem_children_iff wf full
  | node48 nd => exact Node48.WF.mem_entries_iff wf
  | node256 nd =>
      have count : nd.count = 256 := full
      exact absurd notLast (by simp [Layout.count, count])

/-- **`shrink` keeps the children.** -/
theorem shrunk_spec {l : Layout} (wf : l.WF) (under : l.count + 1 = l.minSize)
    (notFirst : l.getType ≠ .node4) :
    ∃ l', l.shrunk = .ok l' ∧ l'.WF ∧ l'.count = l.count ∧ l'.Fits l.count ∧
      ∀ b, l'.child b = l.child b := by
  cases l with
  | node4 nd => exact absurd rfl notFirst
  | node16 nd =>
      have count : nd.count = 4 := Nat.succ.inj under
      obtain ⟨wf', children⟩ := Node4.ofNode16_spec wf count
      refine ⟨.node4 (.ofNode16 nd), rfl, wf', count.symm, ?_, children⟩
      simp [Fits, Layout.count, Layout.getType, maxSize, count]
  | node48 nd =>
      have count : nd.count = 16 := Nat.succ.inj under
      obtain ⟨nd', run, wf', count', children⟩ := Node16.ofNode48_spec wf count
      refine ⟨.node16 nd', by simp only [shrunk, run, Except.map], wf', count'.trans count.symm, ?_,
        children⟩
      simp [Fits, Layout.count, Layout.getType, maxSize, minSize, count]
  | node256 nd =>
      have count : nd.count = 48 := Nat.succ.inj under
      obtain ⟨nd', run, wf', count', children⟩ := Node48.ofNode256_spec wf count
      refine ⟨.node48 nd', by simp only [shrunk, run, Except.map], wf', count'.trans count.symm, ?_,
        children⟩
      simp [Fits, Layout.count, Layout.getType, maxSize, minSize, count]

/-- The constructor that `shrink` calls reparents the children. -/
theorem shrunkKids_lists {l : Layout} (wf : l.WF) (under : l.count + 1 = l.minSize)
    (notFirst : l.getType ≠ .node4) : l.Lists l.shrunkKids := by
  cases l with
  | node4 nd => exact absurd rfl notFirst
  | node16 nd =>
      have count : nd.count = 4 := Nat.succ.inj under
      intro x
      have listed := SortedNode.WF.mem_take_iff wf x
      rwa [count] at listed
  | node48 nd => exact Node48.WF.mem_entries_iff wf
  | node256 nd => exact nd.mem_reads_iff

/-- A `_Node_4` with one child. -/
theorem singleton_spec {nd : Node4} {b : Byte} {c : Addr} (one : nd.count = 1)
    (key : nd.firstKey = b) (kid : nd.childAt 0 = .ok c) :
    (node4 nd).WF ∧ ∀ b', (node4 nd).child b' = if b' = b then some c else none := by
  have first : nd.key 0 = b := by simpa [SortedNode.key, SortedNode.firstKey] using key
  have filled : nd.kid 0 = some c := by
    unfold SortedNode.childAt at kid
    split at kid
    · rename_i child slot
      cases kid
      rw [SortedNode.kid, slot]
      rfl
    · cases kid
    · cases kid
  have wf : nd.WF := by
    refine ⟨by omega, fun i j less lt => ?_, fun i lt => ?_⟩
    · omega
    · obtain rfl : i = 0 := by omega
      rw [filled]
      exact Option.some_ne_none c
  refine ⟨wf, fun b' => ?_⟩
  by_cases same : b' = b
  · rw [if_pos same]
    exact wf.find_eq_some.mpr ⟨0, by omega, first.trans same.symm, filled⟩
  · rw [if_neg same]
    refine wf.find_eq_none.mpr fun i lt equal => ?_
    obtain rfl : i = 0 := by omega
    exact same (equal.symm.trans first)

/-- The node with one child that the trees construct. -/
theorem oneWay_spec (keyByte : Byte) (c : Addr) :
    (oneWay keyByte c).WF ∧ (oneWay keyByte c).count = 1 ∧
      ∀ b, (oneWay keyByte c).child b = if b = keyByte then some c else none := by
  obtain ⟨wf, children⟩ := @singleton_spec ⟨1, (Vector.replicate 4 0).set 0 keyByte,
    (Vector.replicate 4 none).set 0 (some c)⟩ keyByte c rfl rfl rfl
  exact ⟨wf, rfl, children⟩

end Layout

/-! ### The children byte by byte -/

/-- The children of a sorted node in the order of its arrays. -/
theorem SortedNode.WF.take_eq {cap : ℕ} {nd : SortedNode cap} (wf : nd.WF) :
    nd.children.toList.take nd.count = ((List.range nd.count).map nd.key).map nd.find := by
  rw [List.map_map]
  refine List.ext_getElem? fun i => ?_
  rw [List.getElem?_take, Vector.getElem?_toList, List.getElem?_map]
  by_cases lt : i < nd.count
  · obtain ⟨c, child⟩ := Option.ne_none_iff_exists'.mp (wf.filled i lt)
    rw [if_pos lt, List.getElem?_range lt, Option.map_some, Function.comp_apply, wf.find_key lt, child]
    exact Option.join_eq_some_iff.mp child
  · rw [if_neg lt, List.getElem?_eq_none (by simpa using lt), Option.map_none]

namespace Layout

/-- The bytes with a child, in the order in which `clear` visits the children. -/
def byteList : Layout → List Byte
  | .node4 nd => (List.range nd.count).map nd.key
  | .node16 nd => (List.range nd.count).map nd.key
  | .node48 nd => nd.usedBytes
  | .node256 nd => nd.usedBytes

variable {l : Layout}

theorem mem_byteList (wf : l.WF) (b : Byte) : b ∈ l.byteList ↔ l.child b ≠ none := by
  have sorted : ∀ {cap : ℕ} {nd : SortedNode cap}, nd.WF →
      (b ∈ (List.range nd.count).map nd.key ↔ nd.find b ≠ none) := by
    intro cap nd wf
    rw [Ne, wf.find_eq_none]
    simp
  cases l with
  | node4 nd => exact sorted wf
  | node16 nd => exact sorted wf
  | node48 nd => simp [byteList, Node48.usedBytes, child, Node48.WF.child_ne_none wf]
  | node256 nd =>
      simp [byteList, Node256.usedBytes, Node256.used, child, Node256.find, Option.isSome_iff_ne_none]

theorem nodup_byteList (wf : l.WF) : l.byteList.Nodup := by
  have sorted : ∀ {cap : ℕ} {nd : SortedNode cap}, nd.WF →
      ((List.range nd.count).map nd.key).Nodup := fun wf =>
    List.nodup_range.map_on fun i inI j inJ same =>
      wf.key_inj (List.mem_range.mp inI) (List.mem_range.mp inJ) same
  cases l with
  | node4 nd => exact sorted wf
  | node16 nd => exact sorted wf
  | node48 nd => exact (List.nodup_finRange 256).filter nd.used
  | node256 nd => exact (List.nodup_finRange 256).filter nd.used

/-- **`clear` visits the children of these bytes.** -/
theorem members_eq (wf : l.WF) : l.members = l.byteList.map fun b => .ok (l.child b) := by
  cases l with
  | node4 nd => rw [members, SortedNode.WF.take_eq wf, List.map_map]; rfl
  | node16 nd => rw [members, SortedNode.WF.take_eq wf, List.map_map]; rfl
  | node48 nd =>
      refine List.map_congr_left fun b inside => ?_
      obtain ⟨c, found, -⟩ := Node48.WF.child_of_used wf (by simpa [Node48.usedBytes] using inside)
      rw [Node48.WF.slot_ok wf found]
      exact congrArg Except.ok found.symm
  | node256 nd => rfl

end Layout

end CppArt
