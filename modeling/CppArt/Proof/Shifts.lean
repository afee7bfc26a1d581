/-
**Shifts inside a node.**

Where its calls are apart, a container does the same over every library, and what the shifts must leave
holds in each state:

* the shifts down, of the erasures and of a split prefix, never start inside their range
  (`SortedNode.eraseBy_eq`, `ArPrefixTree.splitPrefixIntoParentBy_eq`);
* a shift up by one starts inside its range as soon as two keys are larger, and the merge of a prefix of
  `l` bytes as soon as `l` is at most 2 (`larger_key_lost`);
* a run over a library is a run of the container of `Proof/History`, so its invariant is at hand
  (`ShiftRun.history`), and the main result is `shifts_apart`.
-/

import CppArt.Model.Shifts
import CppArt.Proof.PrefixShape

namespace CppArt

open Table

/-! ### Moves -/

/-- **Where the precondition is met**, moving element by element acts as `memmove`. -/
theorem moveForward_eq {α : Type} {size : ℕ} (a : Vector α size) {first last dest : ℕ}
    (movable : Movable first last dest) :
    moveForward a first last dest = memmove a first last dest := by
  by_cases fits : last ≤ size ∧ dest + (last - first) ≤ size
  · obtain ⟨a', moved, read⟩ := memmove_ok a first last dest fits.1 fits.2
    rw [moveForward, if_pos fits, moved]
    refine congrArg Except.ok (Vector.ext fun i lt => ?_)
    have entry : (assignEach (last - first) a first dest)[i]? = a'[i]? := by
      rw [read i lt]
      by_cases empty : last ≤ first
      · rw [Nat.sub_eq_zero_of_le empty, assignEach, if_neg (by omega)]
      · have end_eq : first + (last - first) = last := by omega
        exact assignEach_getElem? (last - first) a (by rwa [end_eq]) (by omega) i lt
    rwa [Vector.getElem?_eq_getElem lt, Vector.getElem?_eq_getElem lt, Option.some.injEq] at entry
  · rw [moveForward, if_neg fits, memmove, if_neg fits]

/-- Every library acts as `memmove` where the precondition is met. -/
theorem Library.move_eq_memmove (lib : Library) {α : Type} {size : ℕ} (a : Vector α size)
    {first last dest : ℕ} (movable : Movable first last dest) :
    lib.move a first last dest = memmove a first last dest :=
  (lib.move_eq a movable).trans (moveForward_eq a movable)

theorem movable_down {first last dest : ℕ} (below : dest < first) : Movable first last dest :=
  fun inside => absurd below (not_lt.mpr inside.1)

theorem movable_up {first last dest : ℕ} (above : last ≤ dest) : Movable first last dest :=
  fun inside => absurd inside.2 (not_lt.mpr above)

/-! ### Cleanup -/

theorem onThrow_congr {H K V α : Type} {n : ℕ} {body body' : Run H K V n α} {s : St H K V n}
    (same : body s = body' s) (cleanup : Run H K V n Unit) :
    onThrow body cleanup s = onThrow body' cleanup s := by
  unfold onThrow
  rw [same]

/-! ### Sorted nodes -/

section Nodes

variable (lib : Library)

/-- Erasures shift down, which is always possible. -/
theorem SortedNode.eraseBy_eq {cap : ℕ} (nd : SortedNode cap) (b : Byte) :
    nd.eraseBy lib b = nd.erase b := by
  unfold SortedNode.eraseBy SortedNode.erase
  simp only [lib.move_eq_memmove _ (movable_down (Nat.lt_succ_self _))]

/-- An insertion with at most one larger key shifts one entry, past the end of the range. -/
theorem SortedNode.insertBy_eq {cap : ℕ} {nd : SortedNode cap} {b : Byte}
    (few : nd.count ≤ nd.lowerPos b + 1) (node : Addr) : nd.insertBy lib b node = nd.insert b node := by
  unfold SortedNode.insertBy SortedNode.insert
  simp only [lib.move_eq_memmove _ (movable_up few)]

theorem Layout.eraseBy_eq (l : Layout) (b : Byte) : l.eraseBy lib b = l.erase b := by
  cases l <;> simp only [Layout.eraseBy, Layout.erase, SortedNode.eraseBy_eq]

/-- At most one key of a sorted node is larger. -/
def Layout.Settles : Layout → Byte → Prop
  | .node4 nd, b => nd.count ≤ nd.lowerPos b + 1
  | .node16 nd, b => nd.count ≤ nd.lowerPos b + 1
  | _, _ => True

theorem Layout.insertBy_eq {l : Layout} {b : Byte} (settles : l.Settles b) (node : Addr) :
    l.insertBy lib b node = l.insert b node := by
  cases l with
  | node4 nd => simp only [Layout.insertBy, Layout.insert, SortedNode.insertBy_eq lib settles]
  | node16 nd => simp only [Layout.insertBy, Layout.insert, SortedNode.insertBy_eq lib settles]
  | node48 nd => rfl
  | node256 nd => rfl

/-- With two larger keys the range of the shift would go on behind its destination. -/
theorem SortedNode.WF.settles {cap : ℕ} {nd : SortedNode cap} (wf : nd.WF) {b : Byte}
    (absent : nd.find b = none)
    (one : ∀ b₁ b₂, nd.find b₁ ≠ none → nd.find b₂ ≠ none → b < b₁ → b < b₂ → b₁ = b₂) :
    nd.count ≤ nd.lowerPos b + 1 := by
  by_contra more
  have lt : nd.lowerPos b + 1 < nd.count := not_le.mp more
  have lt' : nd.lowerPos b < nd.count := (Nat.lt_succ_self _).trans lt
  have present : ∀ i < nd.count, nd.find (nd.key i) ≠ none := fun i inside => by
    rw [wf.find_key inside]
    exact wf.filled i inside
  have same := one _ _ (present _ lt') (present _ lt) (wf.lt_key_of_absent absent le_rfl lt')
    (wf.lt_key_of_absent absent (Nat.le_succ _) lt)
  exact absurd (wf.key_inj lt' lt same) (Nat.lt_succ_self _).ne

theorem Layout.settles {l : Layout} (wf : l.WF) {b : Byte} (absent : l.child b = none)
    (one : ∀ b₁ ∈ l.bytes, ∀ b₂ ∈ l.bytes, b < b₁ → b < b₂ → b₁ = b₂) : l.Settles b := by
  cases l with
  | node4 nd => exact SortedNode.WF.settles wf absent fun b₁ b₂ in₁ in₂ => one b₁ in₁ b₂ in₂
  | node16 nd => exact SortedNode.WF.settles wf absent fun b₁ b₂ in₁ in₂ => one b₁ in₁ b₂ in₂
  | node48 nd => trivial
  | node256 nd => trivial

/-- A node with 16 children has no sorted arrays when there is room for another one. -/
theorem Layout.settles_of_many {l : Layout} (many : 16 ≤ l.count) (room : l.Fits (l.count + 1))
    (b : Byte) : l.Settles b := by
  have le : l.count + 1 ≤ l.maxSize := room.2.1
  cases l with
  | node4 nd => exact absurd (many.trans (Nat.le_of_succ_le le)) (by decide : ¬ 16 ≤ 4)
  | node16 nd => exact absurd ((Nat.succ_le_succ many).trans le) (by decide : ¬ 17 ≤ 16)
  | node48 nd => trivial
  | node256 nd => trivial

end Nodes

/-! ### Member functions of nodes -/

section Cells

variable {H K V : Type} {n : ℕ} (lib : Library)

theorem eraseChildBy_eq (a : Addr) (keyByte : Byte) :
    (eraseChildBy lib a keyByte : Run H K V n Unit) = eraseChild a keyByte := by
  unfold eraseChildBy
  simp only [Layout.eraseBy_eq]
  rfl

theorem insertChildBy_eq {s : St H K V n} {a : Addr} {p : Option Addr} {h : H} {l : Layout} {b : Byte}
    (cell : s.mem.get a = some ⟨p, .inner h l⟩) (settles : l.Settles b) (node : Addr) :
    insertChildBy lib a b node s = insertChild a b node s := by
  unfold insertChildBy insertChild
  rw [Exec.bind_of_ok (load_ok cell), Exec.bind_of_ok (load_ok cell)]
  simp only [Layout.insertBy_eq lib settles]

end Cells

/-! ### The prefix tree -/

namespace ArPrefixTree

variable {K V : Type} {n : ℕ} (lib : Library)

theorem splitPrefixIntoParentBy_eq (tr : Traits K V n) (node : Addr) (mismatchPos : ℕ) :
    splitPrefixIntoParentBy lib tr node mismatchPos = splitPrefixIntoParent tr node mismatchPos := by
  unfold splitPrefixIntoParentBy splitPrefixIntoParent
  simp only [lib.move_eq_memmove _ (movable_down (Nat.succ_pos mismatchPos))]

theorem enterBy_eq (tr : Traits K V n) :
    (enterBy lib tr : Addr → Key n → ℕ → Run PrefixHeader K V n (Addr × ℕ)) = enter tr := by
  funext current key depth
  unfold enterBy enter
  simp only [splitPrefixIntoParentBy_eq]

/-- **A merge across a prefix of three bytes or more** moves the child's bytes past their range. -/
theorem compressNodeIntoChildBy_eq {s : State K V n} {a : Addr} {p : Option Addr} {h : PrefixHeader}
    {nd : Node4} (cell : s.mem.get a = some ⟨p, .inner h (.node4 nd)⟩)
    (wide : ∀ c p' child l', nd.childAt 0 = .ok c → s.mem.get c = some ⟨p', .inner child l'⟩ →
      3 ≤ h.prefixLength) :
    compressNodeIntoChildBy lib a s = compressNodeIntoChild a s := by
  unfold compressNodeIntoChildBy compressNodeIntoChild
  rw [Exec.bind_of_ok (load_ok cell), Exec.bind_of_ok (load_ok cell)]
  simp only []
  rcases first : nd.childAt 0 with _ | c
  · rfl
  · rw [Exec.bind_of_ok (Exec.lift_ok c s), Exec.bind_of_ok (Exec.lift_ok c s)]
    refine Exec.bind_congr_right fun type t typed => ?_
    by_cases leaf : type = .leaf
    · rw [if_pos leaf, if_pos leaf]
    · rw [if_neg leaf, if_neg leaf]
      refine Exec.bind_congr_right fun child t' read => ?_
      obtain rfl := getType_eq_ok typed
      obtain ⟨-, p', l', inner⟩ := headerOf_eq_ok read
      have three := wide c p' child l' first inner
      have movable : Movable 0 (maxPrefixLength - h.prefixLength - 1) (h.prefixLength + 1) :=
        movable_up (by unfold maxPrefixLength; omega)
      simp only [lib.move_eq_memmove _ movable]

/-- The first half of `fix_after_erase`: the node is shrunk if it has too few children. -/
def narrow (node : Addr) (key : Key n) : Run PrefixHeader K V n Addr := do
  let size ← sizeOf node
  let minSize ← minSizeOf node
  if size < minSize then do
    let (shrunk, _) ← shrink node
    let parent ← deref (← parentOf shrunk)
    updateChildPtr parent shrunk key
    pure shrunk
  else pure node

/-- **The second half of `fix_after_erase`** depends on the library if a node with one child is left. -/
theorem fixAfterEraseBy_of_narrow {s t : State K V n} {q a : Addr} {k : Key n} {p : Option Addr}
    {body : Body PrefixHeader V} (narrowed : narrow q k s = .ok a t) (cell : t.mem.get a = some ⟨p, body⟩)
    (merge : ∀ h nd, body = .inner h (.node4 nd) → nd.count = 1 →
      compressNodeIntoChildBy lib a t = compressNodeIntoChild a t) :
    fixAfterEraseBy lib q k s = fixAfterErase q k s := by
  have first : fixAfterErase q k = narrow q k >>= fun node => (do
      let type ← getType node
      let size ← sizeOf node
      if type = .node4 ∧ size = 1 then do
        let child ← compressNodeIntoChild node
        let parent ← deref (← parentOf child)
        updateChildPtr parent child k
      else pure () : Run PrefixHeader K V n Unit) := by
    unfold fixAfterErase narrow
    simp only [bind_assoc]
  have firstBy : fixAfterEraseBy lib q k = narrow q k >>= fun node => (do
      let type ← getType node
      let size ← sizeOf node
      if type = .node4 ∧ size = 1 then do
        let child ← compressNodeIntoChildBy lib node
        let parent ← deref (← parentOf child)
        updateChildPtr parent child k
      else pure () : Run PrefixHeader K V n Unit) := by
    unfold fixAfterEraseBy narrow
    simp only [bind_assoc]
  rw [first, firstBy, Exec.bind_of_ok narrowed, Exec.bind_of_ok narrowed]
  refine Exec.bind_congr_right fun type t₁ typed => Exec.bind_congr_right fun size t₂ sized => ?_
  by_cases both : type = .node4 ∧ size = 1
  · obtain ⟨rfl, one⟩ := both
    obtain ⟨found, u, loaded, rest⟩ := Exec.bind_eq_ok.mp typed
    obtain ⟨here, rfl⟩ := load_eq_ok loaded
    rw [cell, Option.some.injEq] at here
    subst here
    cases body with
    | inner h l =>
        cases l with
        | node4 nd =>
            cases rest
            rw [sizeOf_inner cell] at sized
            cases sized
            rw [if_pos ⟨rfl, one⟩, if_pos ⟨rfl, one⟩]
            exact Exec.bind_congr_left (merge h nd rfl one) _
        | node16 nd => cases rest
        | node48 nd => cases rest
        | node256 nd => cases rest
    | leaf v => cases rest
    | baseLeaf => cases rest
    | dummy root leaf => cases rest
  · rw [if_neg both, if_neg both]

theorem narrow_small {s s₁ s₂ : State K V n} {q shrunk p' : Addr} {p : Option Addr} {changed : Bool}
    {h : PrefixHeader} {l : Layout} {k : Key n} {body : Body PrefixHeader V}
    (cell : s.mem.get q = some ⟨p, .inner h l⟩) (small : l.count < l.minSize)
    (run : shrink q s = .ok (shrunk, changed) s₁) (cell₁ : s₁.mem.get shrunk = some ⟨some p', body⟩)
    (redirected : updateChildPtr p' shrunk k s₁ = .ok ⟨⟩ s₂) : narrow q k s = .ok shrunk s₂ := by
  unfold narrow
  rw [Exec.bind_of_ok (sizeOf_inner cell), Exec.bind_of_ok (minSizeOf_inner cell), if_pos small,
    Exec.bind_of_ok run]
  simp only []
  rw [Exec.bind_of_ok (parentOf_ok cell₁)]
  exact Exec.bind_of_ok redirected _

/-- **`fix_after_erase`** does not depend on the library if the node it merges into an inner child has a
wide header. -/
theorem fixAfterEraseBy_eq {tr : Traits K V n} {s : State K V n} {p q e : Addr} {h : PrefixHeader}
    {l : Layout} {d : ℕ} {M : Contents n V} {own : Set Addr} {sub : Byte → Set Addr} {k : Key n}
    (vacated : Vacated tr s e k M p q d h l sub own)
    (wide : l.count = 1 → ∀ b c p' child l', l.child b = some c →
      s.mem.get c = some ⟨p', .inner child l'⟩ → 3 ≤ h.prefixLength) :
    fixAfterEraseBy lib q k s = fixAfterErase q k s := by
  have cell := vacated.node.cell
  by_cases small : l.count < l.minSize
  · by_cases first : l.getType = .node4
    · have positive := vacated.count_pos
      have one : l.count = 1 := by
        have few := (Layout.count_lt_minSize_iff first).mp small
        omega
      obtain ⟨b, c, other, child⟩ := vacated.exists_left
      have rep := vacated.node.kid b other c child
      rcases rep.inspect with ⟨v, leaf, -, -⟩ | ⟨h', l', inner, -⟩
      · obtain ⟨mem', run, outer', leaf', off, -, -, -⟩ :=
          vacated.shrinkToLeaf_spec first one child rep.top_mem leaf
        obtain ⟨s', redirected, -, frame', -⟩ :=
          updateChildPtr_spec (s := s.withMem mem') outer' (Word.Agree.refl d k) c
        have leaf'' : s'.mem.get c = some ⟨some p, .leaf v⟩ := (frame'.keeps.get c
          (fun inside => off (outer'.links_subset inside)) (Memory.lt_next_of_get leaf')).trans leaf'
        exact fixAfterEraseBy_of_narrow lib (narrow_small cell small run leaf' redirected) leaf''
          fun _ _ same _ => by cases same
      · have run := shrink_inner vacated.node.wf cell first child one inner
        obtain ⟨s₁, redirected, -, frame₁, -⟩ :=
          updateChildPtr_spec vacated.outer (Word.Agree.refl d k) q
        have cell₁ : s₁.mem.get q = some ⟨some p, .inner h l⟩ := (frame₁.keeps.get q
          (fun inside => vacated.off (vacated.outer.links_subset inside))
          (Memory.lt_next_of_get cell)).trans cell
        refine fixAfterEraseBy_of_narrow lib (narrow_small cell small run cell redirected) cell₁
          fun h₁ nd same _ => ?_
        cases same
        exact compressNodeIntoChildBy_eq lib cell₁ fun _ _ _ _ _ _ => wide one b c _ h' l' child inner
    · have two := vacated.fits.two_le first
      obtain ⟨l', mem', s', run, cell', redirected, -, node', -, count', -, -, -, -⟩ :=
        vacated.shrinkInto_spec small first
      refine fixAfterEraseBy_of_narrow lib (narrow_small cell small run cell' redirected) node'.cell
        fun h₁ nd same one => ?_
      cases same
      have several : 2 ≤ nd.count := two.trans_eq count'.symm
      omega
  · have kept : narrow q k s = .ok q s := by
      unfold narrow
      rw [Exec.bind_of_ok (sizeOf_inner cell), Exec.bind_of_ok (minSizeOf_inner cell), if_neg small]
      rfl
    refine fixAfterEraseBy_of_narrow lib kept cell fun h₁ nd same one => ?_
    cases same
    exact absurd one.symm (Nat.ne_of_lt (lt_of_lt_of_le Nat.one_lt_two
      ((Layout.two_le_minSize _).trans (not_lt.mp small))))

end ArPrefixTree

/-! ### Insertions and erasures -/

/-- **The laws of the trees over a library.** -/
class LawfulShifting (H : Type) [Variant H] [HeaderSpec H] [Shifting H] : Prop where
  enterBy_eq {K V : Type} {n : ℕ} (lib : Library) (tr : Traits K V n) :
    (Shifting.enterBy lib tr : Addr → Key n → ℕ → Run H K V n (Addr × ℕ)) = Variant.enter tr
  fixAfterEraseBy_eq {K V : Type} {n : ℕ} (lib : Library) {tr : Traits K V n} {s : St H K V n}
    {p q e : Addr} {h : H} {l : Layout} {d : ℕ} {M : Contents n V} {own : Set Addr}
    {sub : Byte → Set Addr} {k : Key n} (vacated : Vacated tr s e k M p q d h l sub own)
    (wide : l.count = 1 → ∀ b c p' child l', l.child b = some c →
      s.mem.get c = some ⟨p', .inner child l'⟩ → Shifting.Wide h) :
    Shifting.fixAfterEraseBy lib q k s = Variant.fixAfterErase q k s

instance : LawfulShifting DepthHeader where
  enterBy_eq _ _ := rfl
  fixAfterEraseBy_eq _ _ _ _ _ _ _ _ _ _ _ _ _ _ _ := rfl

instance : LawfulShifting PrefixHeader where
  enterBy_eq lib tr := ArPrefixTree.enterBy_eq lib tr
  fixAfterEraseBy_eq lib _ _ _ _ _ _ _ _ _ _ _ _ vacated wide :=
    ArPrefixTree.fixAfterEraseBy_eq lib vacated wide

section Calls

variable {H K V : Type} {n : ℕ} [Variant H] [HeaderSpec H] [LawfulVariant H] [Shifting H]
  [LawfulShifting H] {tr : Traits K V n} {s : St H K V n} {k : Key n} {M : Contents n V} {e q : Addr}
  {r : ℕ} {own : Set Addr} (lib : Library)

omit [LawfulVariant H] in
theorem insertLoopBy_eq {α : Type} (limit : ℕ) (duplicate : Addr → Run H K V n α)
    (place : Addr → ℤ → Run H K V n α) (steps : ℕ) :
    insertLoopBy lib tr limit k duplicate place steps = insertLoop tr limit k duplicate place steps := by
  induction steps with
  | zero => rfl
  | succ steps ih =>
      funext depth current previous
      unfold insertLoopBy at ih ⊢
      cases current with
      | none => rfl
      | some current =>
          have enters : @Variant.enter H (Variant.over H lib) K V n tr = Variant.enter tr :=
            LawfulShifting.enterBy_eq lib tr
          unfold insertLoop
          rw [ih, enters]
          rfl

omit [LawfulVariant H] [Shifting H] [LawfulShifting H] in
theorem Opened.top_mem (opened : Opened tr s e k M q r own) : q ∈ own := by
  cases opened
  exact Or.inr (Set.mem_insert _ _)

omit [LawfulVariant H] [Shifting H] [LawfulShifting H] in
/-- **The node that is opened** has the bytes with which the stored keys beside the key go on. -/
theorem Opened.beside (opened : Opened tr s e k M q r own) :
    ∃ p h l, s.mem.get q = some ⟨some p, .inner h l⟩ ∧ branch h = r ∧ r < n ∧ l.WF ∧
      l.child (k.letter r) = none ∧ l.Fits (l.count + 1) ∧ bytesBeside (dom M) k r = l.bytes ∧
      (∃ v ∈ dom M, Word.Agree r k v) ∧ ∀ v ∈ dom M, ¬ Word.Agree (r + 1) k v := by
  obtain @⟨p, q, d, outerOwn, h, l, sub, outer, node, missing, vacant, room, broad, clear⟩ := opened
  have departs : ∀ v ∈ dom M, ¬ Word.Agree (branch h + 1) k v := by
    intro v member agree
    have inside : v ∈ dom (under M k (branch h + 1)) := mem_dom_under.mpr ⟨agree, member⟩
    rw [vacant, dom_empty] at inside
    exact inside
  have other : ∀ {b}, l.child b ≠ none → b ≠ k.letter (branch h) := by
    rintro b present rfl
    exact present missing
  refine ⟨p, h, l, node.cell, rfl, node.bound, node.wf, missing, room, ?_, ?_, departs⟩
  · ext b
    constructor
    · rintro ⟨v, member, agree, rfl⟩ none
      have differ : v.letter (branch h) ≠ k.letter (branch h) := fun same =>
        departs v member (Word.agree_succ.mpr ⟨agree, same.symm⟩)
      have inside : v ∈ dom (fiber (under M k d) (branch h) (v.letter (branch h))) :=
        mem_dom_fiber.mpr ⟨rfl, mem_dom_under.mpr ⟨agree.mono node.depth_le, member⟩⟩
      rw [(node.bare _ differ none).1, dom_empty] at inside
      exact inside
    · intro present
      obtain ⟨c, slot⟩ := Option.ne_none_iff_exists'.mp present
      obtain ⟨v, member, agree, letter⟩ := node.exists_key (other present) slot
      rw [dom_drop] at member
      exact ⟨v, member.1, agree, letter⟩
  · obtain ⟨v, inside, notK⟩ := Set.Nontrivial.exists_ne (HeaderSpec.broad_nontrivial broad) k
    have member : v ∈ dom M := inside.2.resolve_left notK
    exact ⟨v, member, node.shared v (mem_dom_under.mpr ⟨inside.1, member⟩)⟩

omit [LawfulVariant H] [Shifting H] [LawfulShifting H] in
/-- **An insertion beside few larger bytes** shifts one entry at most. -/
theorem Opened.settles (opened : Opened tr s e k M q r own) (few : FewLarger (dom M) k)
    {p : Option Addr} {h : H} {l : Layout} (cell : s.mem.get q = some ⟨p, .inner h l⟩) :
    branch h = r ∧ l.Settles (k.letter r) := by
  obtain ⟨p', h', l', cell', branches, -, wf, missing, room, beside, near, departs⟩ := opened.beside
  rw [cell', Option.some.injEq, Cell.mk.injEq, Body.inner.injEq] at cell
  obtain ⟨-, rfl, rfl⟩ := cell
  refine ⟨branches, ?_⟩
  rcases few r near departs with many | one
  · have count : 16 ≤ l'.count := by
      rw [Layout.count_eq_ncard wf]
      rw [beside] at many
      exact many.trans_eq (congrArg Set.ncard (Set.ext fun b => (Layout.mem_branchBytes wf).symm))
    exact Layout.settles_of_many count room _
  · rw [beside, Set.ncard_le_one (Set.toFinite _)] at one
    exact Layout.settles wf missing fun b₁ in₁ b₂ in₂ lt₁ lt₂ => one b₁ ⟨in₁, lt₁⟩ b₂ ⟨in₂, lt₂⟩

/-! ### `insert_unique` and `emplace_unique` -/

/-- **`insert_unique`** does not depend on the library beside few larger bytes. -/
theorem insertUniqueBy_eq (admits : Admits H n) (holds : Holds tr s e M own) {x : V}
    (few : FewLarger (dom M) (tr.keyOf x)) : insertUniqueBy lib tr x s = insertUnique tr x s := by
  unfold insertUniqueBy insertUnique
  rw [Exec.bind_of_ok (this_apply s), Exec.bind_of_ok (this_apply s)]
  rcases root : s.tree.root with _ | c
  · rfl
  · obtain ⟨rest, ctx, rep, clear, rfl⟩ := holds.path root (tr.keyOf x)
    simp only [holds.key_eq x, insertLoopBy_eq]
    rcases insertLoop_ends admits (le_refl n) holds.stateless holds.calm (n + 1) (by omega) ctx rep clear
      with ⟨it, v, entry, run⟩ | ⟨q, i, s', own', run, opened, frame, renews⟩
    · rw [run, run]
    · rw [run, run]
      obtain ⟨p, h, l, cell, rfl, bound, -⟩ := opened.beside
      have calm : s'.mem.failAt = none := frame.keeps.failAt.trans holds.calm
      have cell' := Memory.alloc_get_of_get cell ⟨some q, .leaf x⟩
      rw [Exec.bind_of_ok (new_ok _ calm), Exec.bind_of_ok (new_ok _ calm),
        Exec.bind_of_ok (chunkAt_ok _ bound _), Exec.bind_of_ok (chunkAt_ok _ bound _)]
      exact Exec.bind_congr_left (insertChildBy_eq lib cell' (opened.settles few cell).2 _) _

omit [LawfulVariant H] in
theorem getInsertUniquePosBy_eq :
    (getInsertUniquePosBy lib tr k : Run H K V n Addr) = getInsertUniquePos tr k := by
  unfold getInsertUniquePosBy
  simp only [insertLoopBy_eq]
  rfl

omit [HeaderSpec H] [LawfulVariant H] [Shifting H] [LawfulShifting H] in
theorem insertLeafBy_eq {leaf : Addr} {body : Body H V} {p : Option Addr}
    (cell : s.mem.get leaf = some ⟨p, body⟩) (other : q ≠ leaf)
    (settles : ∀ p h l, s.mem.get q = some ⟨p, .inner h l⟩ → l.Settles (k.letter (branch h))) :
    insertLeafBy lib q leaf k s = insertLeaf q leaf k s := by
  unfold insertLeafBy insertLeaf
  rw [Exec.bind_of_ok (setParent_ok cell _), Exec.bind_of_ok (setParent_ok cell _)]
  refine Exec.bind_congr_right fun type t typed => ?_
  obtain rfl := getType_eq_ok typed
  split
  · refine Exec.bind_congr_right fun h t read => ?_
    obtain ⟨rfl, p', l, inner⟩ := headerOf_eq_ok read
    refine Exec.bind_congr_right fun keyByte t chunk => ?_
    obtain ⟨rfl, rfl⟩ := chunkAt_eq_ok chunk
    have before : s.mem.get q = some ⟨p', .inner h l⟩ :=
      (Memory.set_get_of_ne _ _ other).symm.trans inner
    exact Exec.bind_congr_left (insertChildBy_eq lib inner (settles p' h l before) _) _
  · rfl

/-- **`emplace_unique`** does not depend on the library beside few larger bytes. -/
theorem emplaceUniqueBy_eq (admits : Admits H n) (holds : Holds tr s e M own) {x : V}
    (few : FewLarger (dom M) (tr.keyOf x)) : emplaceUniqueBy lib tr x s = emplaceUnique tr x s := by
  let leaf := s.mem.next
  let s₁ := s.withMem (s.mem.alloc ⟨none, .leaf x⟩)
  have cell : s₁.mem.get leaf = some ⟨none, .leaf x⟩ := Memory.alloc_get_next _ _
  have off : leaf ∉ own := fun inside => absurd (holds.whole.lt_next inside) (lt_irrefl _)
  have holds₁ : Holds tr s₁ e M own := holds.frame
    (fun y inside => Memory.alloc_get_of_ne _ _ (holds.whole.lt_next inside).ne) rfl
  unfold emplaceUniqueBy emplaceUnique
  rw [Exec.bind_of_ok (onThrow_ok (new_ok _ holds.calm)),
    Exec.bind_of_ok (onThrow_ok (new_ok _ holds.calm))]
  refine onThrow_congr ?_ _
  show (this >>= _) s₁ = (this >>= _) s₁
  rw [Exec.bind_of_ok (this_apply s₁), Exec.bind_of_ok (this_apply s₁),
    Exec.bind_of_ok (leafValue_ok cell), Exec.bind_of_ok (leafValue_ok cell), holds₁.key_eq x,
    getInsertUniquePosBy_eq]
  refine Exec.bind_congr_right fun q s₂ position => Exec.bind_congr_right fun type t typed => ?_
  obtain rfl := getType_eq_ok typed
  split
  · refine Exec.bind_congr_left ?_ _
    unfold getInsertUniquePos at position
    rw [Exec.bind_of_ok (this_apply s₁)] at position
    rcases root : s₁.tree.root with _ | c
    · -- an empty container: the leaf becomes the root
      rw [root] at position
      cases position
      obtain ⟨link, sentinel⟩ := holds₁.sentinel.1
      refine insertLeafBy_eq lib cell (fun same => ?_) fun p h l inner => ?_
      · rw [same, cell] at sentinel
        cases sentinel
      · rw [sentinel] at inner
        cases inner
    · obtain ⟨rest, ctx, rep, clear, owned⟩ := holds₁.path root (tr.keyOf x)
      simp only [root] at position
      rcases insertLoop_ends admits (LawfulVariant.le_posLimit (H := H) n) holds₁.stateless holds₁.calm
          (n + 1) (by omega) ctx rep clear with
        ⟨it, v, entry, run⟩ | ⟨q', i, s', own', run, opened, frame, renews⟩
      · rw [run] at position
        cases position
        obtain ⟨-, inside, -, p, leafCell⟩ := holds₁.entry entry
        refine insertLeafBy_eq lib cell (fun same : q = leaf => off (same ▸ inside)) fun p h l inner => ?_
        rw [leafCell] at inner
        cases inner
      · rw [run] at position
        cases position
        rw [← owned] at frame renews
        have lt := Memory.lt_next_of_get cell
        refine insertLeafBy_eq lib ((frame.keeps.get leaf off lt).trans cell) (fun same : q = leaf => ?_)
          fun p h l inner => ?_
        · exact (renews.within q opened.top_mem).elim (fun inside => off (same ▸ inside))
            fun beyond => absurd (same ▸ lt) (not_lt.mpr beyond)
        · obtain ⟨branches, settles⟩ := opened.settles few inner
          rw [branches]
          exact settles
  · rfl

/-! ### `erase_unique` and `erase` -/

omit [HeaderSpec H] [LawfulVariant H] [LawfulShifting H] in
/-- The end of an erasure at a leaf below an inner node, over a library. -/
def detachBy (lib : Library) (q : Addr) (keyByte : Byte) (key : Key n) : Run H K V n Unit := do
  eraseChildBy lib q keyByte
  updateCount (· - 1)
  Shifting.fixAfterEraseBy lib q key

omit [HeaderSpec H] [LawfulVariant H] [LawfulShifting H] in
theorem eraseLoopBy_eq (key : Key n) : ∀ steps,
    (eraseLoopBy lib tr key steps : ℕ → Addr → Run H K V n ℕ)
      = eraseLoopWith (detachBy lib) tr key steps
  | 0 => rfl
  | steps + 1 => by
      funext depth current
      simp only [eraseLoopWith, detachBy, bind_assoc, ← eraseLoopBy_eq key steps]
      rfl

omit [HeaderSpec H] [LawfulVariant H] [LawfulShifting H] in
theorem eraseUniqueBy_eq_with (k : K) :
    (eraseUniqueBy lib tr k : Run H K V n ℕ) = eraseUniqueWith (detachBy lib) tr k := by
  unfold eraseUniqueBy
  simp only [eraseLoopBy_eq]
  rfl

omit [HeaderSpec H] [LawfulVariant H] [LawfulShifting H] in
theorem eraseAtBy_eq_with (it : Addr) :
    (eraseAtBy lib tr it : Run H K V n Addr) = eraseAtWith (detachBy lib) tr it := by
  unfold eraseAtBy eraseAtWith
  simp only [detachBy, bind_assoc]

omit [LawfulVariant H] [Shifting H] [LawfulShifting H] in
/-- The node above a leaf belongs to the tree. -/
theorem LeafSite.isInner {p c : Addr} {v : V} {d : ℕ} {h : H} {l : Layout} {sub : Byte → Set Addr}
    {own' : Set Addr} (holds : Holds tr s e M own)
    (site : LeafSite tr s e k M own p q c v d h l sub own') : IsInner s q h l := by
  obtain ⟨⟨r, body, root, below, -⟩, -⟩ := holds.stored_of_entry site.entry
  rcases Reached.parent ⟨r, root, below⟩ with top | ⟨a, h', l', b, inner, slot⟩
  · obtain ⟨rest, ctx, rep, -, -⟩ := holds.path top k
    obtain ⟨body, cell⟩ := rep.top_cell
    have leaf := site.leaf
    rw [cell, Option.some.injEq, Cell.mk.injEq, Option.some.injEq] at leaf
    obtain ⟨-, rfl⟩ := leaf
    exact absurd rfl (site.ne_root cell)
  · obtain ⟨body, here⟩ := holds.child_cell inner slot
    obtain ⟨reached, p', cell⟩ := inner
    rw [site.leaf, Option.some.injEq, Cell.mk.injEq, Option.some.injEq] at here
    obtain ⟨rfl, -⟩ := here
    have node := site.node.cell
    rw [cell, Option.some.injEq, Cell.mk.injEq, Body.inner.injEq] at node
    obtain ⟨-, rfl, rfl⟩ := node
    exact ⟨reached, p', cell⟩

omit [LawfulVariant H] [Shifting H] [LawfulShifting H] in
/-- **An only child that is left** when a leaf is erased is the other one of two. -/
theorem LeafSite.leftAlone {p c c' : Addr} {v : V} {d : ℕ} {h child : H} {l l' l'' : Layout} {b : Byte}
    {p' : Option Addr} {sub : Byte → Set Addr} {own' : Set Addr} (holds : Holds tr s e M own)
    (site : LeafSite tr s e k M own p q c v d h l sub own') (count : l'.count + 1 = l.count)
    (children : ∀ b, l'.child b = if b = k.letter (branch h) then none else l.child b)
    (one : l'.count = 1) (slot : l'.child b = some c')
    (inner : s.mem.get c' = some ⟨p', .inner child l''⟩) : LeftAlone s c q h b c' child l'' := by
  have isInner := site.isInner holds
  have other : b ≠ k.letter (branch h) := by
    rintro rfl
    rw [children, if_pos rfl] at slot
    cases slot
  rw [children, if_neg other] at slot
  have found : l.find b = .ok (some c') := (Layout.find_eq_some site.node.wf).mpr slot
  exact ⟨⟨l, _, isInner, by omega, (Layout.find_eq_some site.node.wf).mpr site.slot, other.symm, found⟩,
    isInner.child found, p', inner⟩

omit [LawfulVariant H] in
/-- **The end of an erasure** does not depend on the library if the headers that are merged are wide. -/
theorem detachBy_eq {p c : Addr} {v : V} {d : ℕ} {h : H} {l : Layout} {sub : Byte → Set Addr}
    {own' : Set Addr} (holds : Holds tr s e M own)
    (site : LeafSite tr s e k M own p q c v d h l sub own')
    (wide : ∀ b c' child l', LeftAlone s c q h b c' child l' → Shifting.Wide h) :
    detachBy lib q (k.letter (branch h)) k s = detach q (k.letter (branch h)) k s := by
  obtain ⟨s₁, l', run, vacated, type, count, children, kept, -, -, -⟩ := site.erased holds
  have unfolded : ∀ finish : Run H K V n Unit, (do
        eraseChild q (k.letter (branch h))
        updateCount (· - 1)
        finish : Run H K V n Unit) s = finish s₁ := by
    intro finish
    have both : (do
        eraseChild q (k.letter (branch h))
        updateCount (· - 1)
        finish : Run H K V n Unit) = (do
        eraseChild q (k.letter (branch h))
        updateCount (· - 1) : Run H K V n Unit) >>= fun _ => finish := by
      rw [bind_assoc]
    rw [both, Exec.bind_of_ok run]
  unfold detachBy detach
  rw [eraseChildBy_eq, unfolded, unfolded]
  refine LawfulShifting.fixAfterEraseBy_eq lib vacated fun one b c' p' child l'' slot inner => ?_
  have other : b ≠ k.letter (branch h) := by
    rintro rfl
    rw [vacated.missing] at slot
    cases slot
  have below : c' ∈ sub b := (vacated.node.kid b other c' slot).top_mem
  have notQ : c' ≠ q := fun same => vacated.node.apart b (same ▸ below)
  have notC : c' ≠ c := fun same => site.off (Or.inr (mem_around_of_sub (same ▸ below)))
  rw [kept c' notQ notC] at inner
  exact wide b c' child l'' (site.leftAlone holds count children one slot inner)

/-! ### Calls -/

/-- **A call whose shifts are apart** does not depend on the library. -/
theorem performBy_eq (admits : Admits H n) (holds : Holds tr s e M own) {call : Call K V}
    {m' : Table Byte n V} (effect : call.Effect tr s (values M) m')
    (apart : call.Apart tr s (values M)) : performBy lib tr call s = perform tr call s := by
  cases effect with
  | insert x =>
      have few : FewLarger (dom M) (tr.keyOf x) := by
        rw [← dom_values]
        exact apart
      exact Exec.bind_congr_left (insertUniqueBy_eq lib admits holds few) _
  | emplace x =>
      have few : FewLarger (dom M) (tr.keyOf x) := by
        rw [← dom_values]
        exact apart
      exact Exec.bind_congr_left (emplaceUniqueBy_eq lib admits holds few) _
  | erase k =>
      refine Exec.bind_congr_left ?_ _
      rw [eraseUniqueBy_eq_with, eraseUnique_eq]
      rcases eraseUniqueWith_walk holds k with ⟨-, run⟩ | ⟨r, v, -, -, -, run⟩ |
        ⟨p, q, c, v, d, h, l, sub, own', site, run⟩
      · rw [run, run]
      · rw [run, run]
      · obtain ⟨stored, key⟩ := holds.stored_of_entry site.entry
        rw [run, run]
        exact Exec.bind_congr_left (detachBy_eq lib holds site fun b c' child l' left =>
          apart c q h b c' child l' ⟨v, stored, key⟩ left) _
  | eraseAt it v stored =>
      refine Exec.bind_congr_left ?_ _
      rw [eraseAtBy_eq_with, eraseAt_eq]
      obtain ⟨result, -, ⟨-, -, run⟩ | ⟨p, q, d, h, l, sub, own', site, run⟩⟩ :=
        eraseAtWith_walk holds (holds.stored_iff.mp stored)
      · rw [run, run]
      · rw [run, run]
        exact Exec.bind_congr_left (detachBy_eq lib holds site fun b c' child l' left =>
          apart it q h b c' child l' rfl left) _
  | clear => rfl

/-- **A run whose calls are apart** is a history. -/
theorem ShiftRun.history (admits : Admits H n) {m : Table Byte n V} (run : ShiftRun lib tr s m) :
    History tr s m := by
  induction run with
  | start calm run => exact .start calm run
  | call before apart effect run ih =>
      obtain ⟨e, M, own, holds, rfl⟩ := ih.holds admits
      rw [performBy_eq lib admits holds effect apart] at run
      exact .call ih effect run

end Calls

/-! ### What the shifts leave -/

theorem SortedNode.WF.entries_spec {cap : ℕ} {nd : SortedNode cap} (wf : nd.WF) :
    nd.entries.length = nd.count ∧ (nd.entries.map Prod.fst).Pairwise (· < ·) ∧
      ∀ b child, (b, child) ∈ nd.entries → ∃ c, child = some c ∧ nd.find b = some c := by
  have length : nd.entries.length = nd.count := by
    simp [SortedNode.entries, wf.le]
  have read : ∀ i (inside : i < nd.entries.length), nd.entries[i] = (nd.key i, nd.kid i) := by
    intro i inside
    have bound : i < cap := (inside.trans_eq length).trans_le wf.le
    simp [SortedNode.entries, SortedNode.key, SortedNode.kid, bound]
  refine ⟨length, List.pairwise_iff_getElem.mpr fun i j lt lt' less => ?_, fun b child member => ?_⟩
  · rw [List.length_map] at lt lt'
    rw [List.getElem_map, List.getElem_map, read i lt, read j lt']
    exact wf.sorted i j less (lt'.trans_eq length)
  · obtain ⟨i, inside, here⟩ := List.mem_iff_getElem.mp member
    rw [read i inside, Prod.mk.injEq] at here
    obtain ⟨rfl, rfl⟩ := here
    have lt := inside.trans_eq length
    obtain ⟨c, filled⟩ := Option.ne_none_iff_exists'.mp (wf.filled i lt)
    exact ⟨c, filled, (wf.find_key lt).trans filled⟩

/-- **A container is orderly.** -/
theorem Holds.orderly {H K V : Type} {n : ℕ} [Header H] [HeaderSpec H] {tr : Traits K V n}
    {s : St H K V n} {M : Contents n V} {e : Addr} {own : Set Addr} (holds : Holds tr s e M own) :
    Orderly tr s := by
  have entries : ∀ {a h l}, IsInner s a h l → (l.getType = .node4 ∨ l.getType = .node16 →
      l.entries.length = l.count) ∧ (l.entries.map Prod.fst).Pairwise (· < ·) ∧
      ∀ b child, (b, child) ∈ l.entries → ∃ c, child = some c ∧ l.child b = some c := by
    rintro a h l ⟨reached, p, cell⟩
    obtain ⟨p', d, m, own, rep, -⟩ := holds.at_reached reached
    obtain ⟨sub, parts, -, -⟩ := rep.parts cell
    have wf := parts.wf
    cases l with
    | node4 nd =>
        obtain ⟨length, sorted, paired⟩ := SortedNode.WF.entries_spec wf
        exact ⟨fun _ => length, sorted, paired⟩
    | node16 nd =>
        obtain ⟨length, sorted, paired⟩ := SortedNode.WF.entries_spec wf
        exact ⟨fun _ => length, sorted, paired⟩
    | node48 nd =>
        exact ⟨fun type => absurd type (by simp [Layout.getType]), List.Pairwise.nil,
          fun b child member => absurd member List.not_mem_nil⟩
    | node256 nd =>
        exact ⟨fun type => absurd type (by simp [Layout.getType]), List.Pairwise.nil,
          fun b child member => absurd member List.not_mem_nil⟩
  refine ⟨fun a h l inner => (entries inner).1, fun a h l inner => (entries inner).2.1,
    fun a h l b child inner member => ?_⟩
  obtain ⟨c, rfl, slot⟩ := (entries inner).2.2 b child member
  obtain ⟨reached, p, cell⟩ := inner
  obtain ⟨p', d, m, own, rep, -⟩ := holds.at_reached reached
  obtain ⟨sub, parts, -, -⟩ := rep.parts cell
  have kid := parts.kid b c slot
  refine ⟨c, rfl, ?_, fun w inside => ?_⟩
  · rw [kid.keysBelow_eq]
    exact kid.nonempty
  · rw [kid.keysBelow_eq] at inside
    exact (mem_dom_fiber.mp inside).1

/-! ### Merged prefixes -/

theorem prefixBytes_eq {n : ℕ} {h : PrefixHeader} {d : ℕ} {v : Key n} (spells : h.Spells d v) :
    h.prefixBytes = (List.range (min h.prefixLength maxPrefixLength)).map fun i => v.letter (d + i) := by
  refine List.ext_getElem? fun i => ?_
  rw [PrefixHeader.prefixBytes, List.getElem?_take, List.getElem?_map]
  by_cases inside : i < min h.prefixLength maxPrefixLength
  · rw [if_pos (by omega), List.getElem?_range inside, Vector.getElem?_toList, spells i inside]
    rfl
  · have beyond : (List.range (min h.prefixLength maxPrefixLength))[i]? = none :=
      List.getElem?_eq_none (by rw [List.length_range]; omega)
    rw [beyond]
    split
    · rw [Vector.getElem?_toList, Vector.getElem?_eq_none (by omega)]
      rfl
    · rfl

theorem merged_of_spells {n : ℕ} {h child joined : PrefixHeader} {b : Byte} {v : Key n}
    (spells : h.Spells h.depth v) (letter : v.letter (h.depth + h.prefixLength) = b)
    (below : child.Spells (h.depth + h.prefixLength + 1) v) (depth : joined.depth = h.depth)
    (length : joined.prefixLength = h.prefixLength + 1 + child.prefixLength)
    (spells' : joined.Spells h.depth v) : Merged h b child joined := by
  refine ⟨depth, length, ?_⟩
  rw [prefixBytes_eq spells, prefixBytes_eq below, prefixBytes_eq spells', length]
  refine List.ext_getElem? fun i => ?_
  rw [List.getElem?_take, List.getElem?_map]
  by_cases inside : i < min (h.prefixLength + 1 + child.prefixLength) maxPrefixLength
  · rw [if_pos (by omega), List.getElem?_append, List.length_map,
      List.length_range]
    rcases lt_trichotomy i h.prefixLength with less | rfl | greater
    · rw [if_pos (by omega), List.getElem?_map, List.getElem?_range (by omega),
        List.getElem?_range (by omega)]
    · rw [if_neg (by omega), min_eq_left (a := h.prefixLength) (by omega), Nat.sub_self, ← letter,
        List.getElem?_range inside]
      rfl
    · obtain ⟨j, rfl⟩ : ∃ j, i = h.prefixLength + 1 + j := ⟨i - (h.prefixLength + 1), by omega⟩
      rw [if_neg (by omega), min_eq_left (a := h.prefixLength) (by omega),
        show h.prefixLength + 1 + j - h.prefixLength = j + 1 by omega, List.getElem?_cons_succ,
        List.getElem?_map, List.getElem?_range inside, List.getElem?_range (by omega)]
      simp only [Option.map_some]
      congr 2
      omega
  · have beyond : (List.range (min (h.prefixLength + 1 + child.prefixLength) maxPrefixLength))[i]?
        = none := List.getElem?_eq_none (by rw [List.length_range]; omega)
    rw [beyond]
    split
    · rw [List.getElem?_eq_none (by simp; omega)]
      rfl
    · rfl

namespace ArPrefixTree

/-- **The merge of a node into its only inner child**, at the end of an erasure. -/
theorem detach_merged {K V : Type} {n : ℕ} {tr : Traits K V n} {s : State K V n} {k : Key n} {M : Contents n V}
    {e p q c c' : Addr} {v : V} {d : ℕ} {h child : PrefixHeader} {l l' : Layout} {b : Byte}
    {sub : Byte → Set Addr} {own own' : Set Addr} (admits : n ≤ 65536) (holds : Holds tr s e M own)
    (site : LeafSite tr s e k M own p q c v d h l sub own')
    (left : LeftAlone s c q h b c' child l') :
    ∃ s' joined, detach q (k.letter (branch h)) k s = .ok ⟨⟩ s' ∧
      s'.mem.get c' = some ⟨some p, .inner joined l'⟩ ∧ Merged h b child joined := by
  obtain ⟨l₀, b', ⟨-, p₀, cell₀⟩, two, slotC, differ, slot⟩ := left.parent
  rw [site.node.cell, Option.some.injEq, Cell.mk.injEq, Body.inner.injEq] at cell₀
  obtain ⟨-, -, rfl⟩ := cell₀
  rw [Layout.find_eq_some site.node.wf] at slotC slot
  -- the two slots are the one of the leaf and another one
  have here : b' = k.letter (branch h) := by
    by_contra other
    exact site.off (Or.inr (mem_around_of_sub (site.node.kid b' other c slotC).top_mem))
  have other : b ≠ k.letter (branch h) := fun same => differ (here.trans same.symm)
  have rep := site.node.kid b other c' slot
  obtain ⟨-, p', inner⟩ := left.inner
  obtain ⟨body, top⟩ := rep.top_cell
  rw [inner, Option.some.injEq, Cell.mk.injEq] at top
  obtain ⟨rfl, -⟩ := top
  have notQ : c' ≠ q := fun same => site.node.apart b (same ▸ rep.top_mem)
  have notC : c' ≠ c := fun same => site.off (Or.inr (mem_around_of_sub (same ▸ rep.top_mem)))
  -- the erasure leaves the other child
  obtain ⟨s₁, l₁, run, vacated, type, count, children, kept, -, -, -⟩ := site.erased holds
  have first : l₁.getType = .node4 := by
    rw [type, site.fits.getType, two]
    rfl
  have slot₁ : l₁.child b = some c' := by rw [children, if_neg other, slot]
  obtain ⟨s', joined, fixed, -, -, -, cell', branches, joins⟩ :=
    fix_merged vacated admits first (by omega) slot₁ other ((kept c' notQ notC).trans inner)
  refine ⟨s', joined, ?_, cell', ?_⟩
  · have unfolded : detach q (k.letter (branch h)) k = ((do
        eraseChild q (k.letter (branch h))
        updateCount (· - 1) : Run PrefixHeader K V n Unit) >>= fun _ => Variant.fixAfterErase q k) := by
      rw [detach, bind_assoc]
    rw [unfolded, Exec.bind_of_ok run]
    exact fixed
  -- a key below the child spells all three headers
  · obtain ⟨w, member⟩ := rep.nonempty
    obtain ⟨letter, below⟩ := mem_dom_fiber.mp member
    have describes : Describes h d w :=
      HeaderSpec.describes_congr (site.node.shared w below) site.node.describes
    obtain ⟨sub', parts, -, -⟩ := rep.parts inner
    have describes' := parts.describes w member
    have describesJoined := joins w describes letter describes'
    obtain ⟨rfl, spells⟩ := describes
    obtain ⟨depth', spells'⟩ := describes'
    obtain ⟨depthJoined, spellsJoined⟩ := describesJoined
    refine merged_of_spells spells letter spells' depthJoined ?_ spellsJoined
    have one : joined.depth + joined.prefixLength = child.depth + child.prefixLength := branches
    have split : branch h = h.depth + h.prefixLength := rfl
    omega

end ArPrefixTree

/-- The node that is left alone is the one above the leaf. -/
theorem LeafSite.eq_of_leftAlone {H K V : Type} {n : ℕ} [Header H] [HeaderSpec H] {tr : Traits K V n}
    {s : St H K V n} {k : Key n} {M : Contents n V} {e p q it a c : Addr} {v : V} {d : ℕ} {h h' child : H}
    {l l' : Layout} {b : Byte} {sub : Byte → Set Addr} {own own' : Set Addr} (holds : Holds tr s e M own)
    (site : LeafSite tr s e k M own p q it v d h l sub own')
    (left : LeftAlone s it a h' b c child l') : a = q ∧ h' = h := by
  obtain ⟨l₀, b', inner, -, slot, -, -⟩ := left.parent
  obtain ⟨body, here⟩ := holds.child_cell inner slot
  rw [site.leaf, Option.some.injEq, Cell.mk.injEq, Option.some.injEq] at here
  obtain ⟨rfl, -⟩ := here
  obtain ⟨-, p', cell⟩ := inner
  rw [site.node.cell, Option.some.injEq, Cell.mk.injEq, Body.inner.injEq] at cell
  exact ⟨rfl, cell.2.1.symm⟩

/-- The root is not left behind by an inner node. -/
theorem Holds.not_leftAlone_root {H K V : Type} {n : ℕ} [Header H] [HeaderSpec H] {tr : Traits K V n}
    {s : St H K V n} {M : Contents n V} {e it a c : Addr} {h child : H} {l' : Layout} {b : Byte}
    {own : Set Addr} {body : Body H V} (holds : Holds tr s e M own)
    (leaf : s.mem.get it = some ⟨some s.tree.dummyNode, body⟩) : ¬ LeftAlone s it a h b c child l' := by
  intro left
  obtain ⟨l₀, b', inner, -, slot, -, -⟩ := left.parent
  obtain ⟨body, here⟩ := holds.child_cell inner slot
  rw [leaf, Option.some.injEq, Cell.mk.injEq, Option.some.injEq] at here
  obtain ⟨-, p, cell⟩ := inner
  obtain ⟨link, sentinel⟩ := holds.sentinel.1
  rw [← here.1, sentinel] at cell
  cases cell

/-! ### The two containers -/

section Both

variable {H K V : Type} {n : ℕ} [Variant H] [HeaderSpec H] [LawfulVariant H] [Shifting H]
  [LawfulShifting H]

theorem ShiftRun.shifted (admits : Admits H n) {lib : Library} {tr : Traits K V n} {s : St H K V n}
    {m : Table Byte n V} (run : ShiftRun lib tr s m) : Shifted lib tr s m := by
  obtain ⟨e, M, own, holds, rfl⟩ := (run.history lib admits).holds admits
  refine ⟨holds.orderly, fun call m' fault effect apart => ?_, fun call m' effect apart =>
    performBy_eq lib admits holds effect apart⟩
  obtain ⟨answer, s', M', own', performed, -⟩ := perform_spec admits holds effect
  exact ⟨answer, s', (performBy_eq (.strict fault) admits holds effect apart).trans performed⟩

end Both

/-- **The merges of a run over a library.** -/
theorem ArPrefixTree.mergesPrefixes {K V : Type} {n : ℕ} (admits : n ≤ 65536) {lib : Library}
    {tr : Traits K V n} {s : ArPrefixTree.State K V n} {m : Table Byte n V}
    (run : ShiftRun lib tr s m) : MergesPrefixes lib tr s m := by
  obtain ⟨e, M, own, holds, rfl⟩ := (run.history lib admits).holds admits
  intro call m' it a h b c child l' effect apart erases left
  rw [performBy_eq lib admits holds effect apart]
  -- what the call does at the leaf above which a node is left alone
  have merges : ∀ {w p q v d h' l sub own'}, LeafSite tr s e w M own p q it v d h' l sub own' →
      ∃ s' p joined, detach q (w.letter (branch h')) w s = .ok ⟨⟩ s' ∧
        s'.mem.get c = some ⟨p, .inner joined l'⟩ ∧ Merged h b child joined := by
    intro w p q v d h' l sub own' site
    obtain ⟨rfl, rfl⟩ := site.eq_of_leftAlone holds left
    obtain ⟨s', joined, run, cell, merged⟩ := ArPrefixTree.detach_merged admits holds site left
    exact ⟨s', _, joined, run, cell, merged⟩
  cases effect with
  | insert x => exact erases.elim
  | emplace x => exact erases.elim
  | clear => exact erases.elim
  | erase k =>
      obtain ⟨v, stored, key⟩ := erases
      have entry := holds.stored_iff.mp stored
      rw [key] at entry
      rcases eraseUniqueWith_walk holds k with ⟨absent, -⟩ | ⟨r, v', root, leaf, same, -⟩ |
        ⟨p, q, c', v', d, h', l, sub, own', site, run⟩
      · rw [absent] at entry
        cases entry
      · obtain ⟨table, -⟩ := detachRoot_spec holds root leaf
        rw [table, single_apply, if_pos same.symm, Option.some.injEq, Prod.mk.injEq] at entry
        exact absurd left (holds.not_leftAlone_root (entry.1 ▸ leaf))
      · have found := site.entry
        rw [entry, Option.some.injEq, Prod.mk.injEq] at found
        obtain ⟨rfl, rfl⟩ := found
        obtain ⟨s', p, joined, detached, cell, merged⟩ := merges site
        refine ⟨.erased 1, s', p, joined, Exec.bind_of_ok ?_ _, cell, merged⟩
        rw [eraseUnique_eq, run]
        exact Exec.bind_of_ok detached _
  | eraseAt it' v stored =>
      obtain rfl : it' = it := erases
      obtain ⟨result, -, ⟨-, leaf, -⟩ | ⟨p, q, d, h', l, sub, own', site, run⟩⟩ :=
        eraseAtWith_walk holds (holds.stored_iff.mp stored)
      · exact absurd left (holds.not_leftAlone_root leaf)
      · obtain ⟨s', p, joined, detached, cell, merged⟩ := merges site
        refine ⟨.next result, s', p, joined, Exec.bind_of_ok ?_ _, cell, merged⟩
        rw [eraseAt_eq, run]
        exact Exec.bind_of_ok detached _

/-- **The shifts of the nodes** do not depend on the library, in every run of either container whose calls
are apart. -/
theorem shifts_apart {K V : Type} {n : ℕ} (lib : Library) (tr : Traits K V n) :
    (∀ (s : ArTree.State K V n) (m : Table Byte n V), ShiftRun lib tr s m → Shifted lib tr s m) ∧
    ∀ (s : ArPrefixTree.State K V n) (m : Table Byte n V), n ≤ 65536 → ShiftRun lib tr s m →
      Shifted lib tr s m ∧ ArPrefixTree.Compressed tr s ∧ MergesPrefixes lib tr s m := by
  refine ⟨fun s m run => run.shifted trivial, fun s m fits run => ⟨run.shifted fits, ?_,
    ArPrefixTree.mergesPrefixes fits run⟩⟩
  obtain ⟨e, M, own, holds, -⟩ := (run.history lib fits).holds fits
  exact ArPrefixTree.compressed_of_holds holds

theorem FewLarger.of_subsingleton {n : ℕ} {S : Set (Key n)} (small : S.Subsingleton) (k : Key n) :
    FewLarger S k := by
  refine fun d _ _ => .inr ((Set.ncard_le_one (Set.toFinite _)).mpr ?_)
  rintro b ⟨⟨v, inV, -, rfl⟩, -⟩ b' ⟨⟨w, inW, -, rfl⟩, -⟩
  rw [small inV inW]

theorem shifts_apart_pair :
    (∃ (s : ArTree.State (Key 1) (Key 1) 1) (m : Table Byte 1 (Key 1)),
      ShiftRun .forward (Traits.identity 1) s m ∧ Shifted .forward (Traits.identity 1) s m) ∧
    ∃ (s : ArPrefixTree.State (Key 1) (Key 1) 1) (m : Table Byte 1 (Key 1)),
      ShiftRun .forward (Traits.identity 1) s m ∧ Shifted .forward (Traits.identity 1) s m := by
  have few : FewLarger (dom (Table.putNew Table.empty ⟨#v[2]⟩ ⟨#v[2]⟩ : Table Byte 1 (Key 1))) ⟨#v[1]⟩ := by
    rw [dom_putNew, dom_empty, insert_empty_eq]
    exact .of_subsingleton Set.subsingleton_singleton _
  have none : FewLarger (dom (Table.empty : Table Byte 1 (Key 1))) ⟨#v[2]⟩ := by
    rw [dom_empty]
    exact .of_subsingleton Set.subsingleton_empty _
  obtain ⟨s₀, s₁, s₂, answer, answer', founded, first, second⟩ :
      ∃ (s₀ s₁ s₂ : ArTree.State (Key 1) (Key 1) 1) (answer answer' : Answer),
        init ⟨Memory.blank, Tree.uninitialised id⟩ = .ok ⟨⟩ s₀ ∧
        performBy .forward (Traits.identity 1) (.insert ⟨#v[2]⟩) s₀ = .ok answer s₁ ∧
        performBy .forward (Traits.identity 1) (.insert ⟨#v[1]⟩) s₁ = .ok answer' s₂ :=
    ⟨_, _, _, _, _, rfl, rfl, rfl⟩
  obtain ⟨t₀, t₁, t₂, answer₁, answer₂, founded', first', second'⟩ :
      ∃ (s₀ s₁ s₂ : ArPrefixTree.State (Key 1) (Key 1) 1) (answer answer' : Answer),
        init ⟨Memory.blank, Tree.uninitialised id⟩ = .ok ⟨⟩ s₀ ∧
        performBy .forward (Traits.identity 1) (.insert ⟨#v[2]⟩) s₀ = .ok answer s₁ ∧
        performBy .forward (Traits.identity 1) (.insert ⟨#v[1]⟩) s₁ = .ok answer' s₂ :=
    ⟨_, _, _, _, _, rfl, rfl, rfl⟩
  have run : ShiftRun .forward (Traits.identity 1) s₂ _ :=
    .call (.call (.start rfl founded) (show Call.Apart _ _ _ (.insert _) from none) (.insert _) first)
      (show Call.Apart _ _ _ (.insert _) from few) (.insert _) second
  have run' : ShiftRun .forward (Traits.identity 1) t₂ _ :=
    .call (.call (.start rfl founded') (show Call.Apart _ _ _ (.insert _) from none) (.insert _) first')
      (show Call.Apart _ _ _ (.insert _) from few) (.insert _) second'
  exact ⟨⟨s₂, _, run, (shifts_apart .forward _).1 s₂ _ run⟩, t₂, _, run',
    ((shifts_apart .forward _).2 t₂ _ (by decide) run').1⟩

/-- The root, the header of the node at 5 with its child at 7, and the leaf at 4. -/
def mergedNode : Run PrefixHeader (Key 4) (Key 4) 4 (Option Addr × PrefixHeader × Option Addr × Key 4) := do
  let tree ← this
  let header ← headerOf 5
  let child ← findChild 5 7
  let value ← leafValue 4
  pure (tree.root, header, child, value)

/-- **Two larger keys, or a merge across a short prefix.** A library that moves element by element loses
the key 3 when 1 is inserted beside 2 and 3; and it leaves the prefix 2 5 5 instead of 2 5 6 when the key
`[1, 0, 0, 0]` is erased beside `[2, 5, 6, 7]` and `[2, 5, 6, 8]`. -/
theorem larger_key_lost :
    (∃ (s s' : ArTree.State (Key 1) (Key 1) 1) (m : Table Byte 1 (Key 1)) (answer : Answer),
      History (Traits.identity 1) s m ∧
      (∀ fault, ∃ t, performBy (.strict fault) (Traits.identity 1) (.insert ⟨#v[1]⟩) s = .error fault t) ∧
      performBy .forward (Traits.identity 1) (.insert ⟨#v[1]⟩) s = .ok answer s' ∧
      ¬ Orderly (Traits.identity 1) s') ∧
    ∃ (s s' : ArPrefixTree.State (Key 4) (Key 4) 4) (m : Table Byte 4 (Key 4)) (answer : Answer),
      History (Traits.identity 4) s m ∧
      performBy .forward (Traits.identity 4) (.erase ⟨#v[1, 0, 0, 0]⟩) s = .ok answer s' ∧
      ¬ ArPrefixTree.Compressed (Traits.identity 4) s' := by
  constructor
  · obtain ⟨s, run, history⟩ := insertAll_history (H := DepthHeader) trivial (Traits.identity 1)
      [⟨#v[2]⟩, ⟨#v[3]⟩]
    obtain ⟨s₀, run₀, strict, s', answer, inserted, p, h, nd, root, cell, keys⟩ :
        ∃ s₀ : ArTree.State (Key 1) (Key 1) 1,
        insertAll (Traits.identity 1) [⟨#v[2]⟩, ⟨#v[3]⟩] (blankState DepthHeader (Traits.identity 1))
          = .ok ⟨⟩ s₀ ∧
        (∀ fault, ∃ t, performBy (.strict fault) (Traits.identity 1) (.insert ⟨#v[1]⟩) s₀
          = .error fault t) ∧
        ∃ s' answer, performBy .forward (Traits.identity 1) (.insert ⟨#v[1]⟩) s₀ = .ok answer s' ∧
          ∃ p h nd, s'.tree.root = some 3 ∧ s'.mem.get 3 = some ⟨p, .inner h (.node4 nd)⟩ ∧
            (Layout.node4 nd).entries.map Prod.fst = [1, 2, 2] :=
      ⟨_, rfl, fun _ => ⟨_, rfl⟩, _, _, rfl, _, _, _, rfl, rfl, rfl⟩
    cases run.symm.trans run₀
    refine ⟨s, s', _, answer, history, strict, inserted, fun orderly => ?_⟩
    have sorted := orderly.sorted 3 h (.node4 nd) ⟨⟨3, root, .refl 3⟩, p, cell⟩
    rw [keys] at sorted
    exact absurd sorted (by decide)
  · obtain ⟨s, run, history⟩ := insertAll_history (H := PrefixHeader) (by decide : 4 ≤ 65536)
      (Traits.identity 4) [⟨#v[1, 0, 0, 0]⟩, ⟨#v[2, 5, 6, 7]⟩, ⟨#v[2, 5, 6, 8]⟩]
    obtain ⟨t, checked⟩ := Exec.ok_of_value? (f := fun _ => do
        let _ ← performBy .forward (Traits.identity 4) (.erase ⟨#v[1, 0, 0, 0]⟩)
        mergedNode) (b := (some 5, ⟨0, 3, #v[2, 5, 5, 5, 5, 5, 5, 5]⟩, some 4, ⟨#v[2, 5, 6, 7]⟩)) run
      (by decide +kernel)
    obtain ⟨answer, s', erased, looked⟩ := Exec.bind_eq_ok.mp checked
    refine ⟨s, s', _, answer, history, erased, fun sound => ?_⟩
    -- what is seen of the merged node
    obtain ⟨tree, t₁, here, looked⟩ := Exec.bind_eq_ok.mp looked
    obtain ⟨header, t₂, read, looked⟩ := Exec.bind_eq_ok.mp looked
    obtain ⟨child, t₃, found, looked⟩ := Exec.bind_eq_ok.mp looked
    obtain ⟨value, t₄, leaf, looked⟩ := Exec.bind_eq_ok.mp looked
    have same := (EStateM.Result.ok.inj looked).1
    simp only [Prod.mk.injEq] at same
    obtain ⟨root, rfl, rfl, rfl⟩ := same
    obtain ⟨rfl, rfl⟩ : s'.tree = tree ∧ s' = t₁ := by cases here; exact ⟨rfl, rfl⟩
    obtain ⟨rfl, p, l, cell⟩ := headerOf_eq_ok read
    obtain ⟨rfl, p', h', l', cell', slot⟩ := findChild_eq_ok found
    obtain ⟨rfl, q, leafCell⟩ := leafValue_eq_ok leaf
    have right := sound.stored 5 _ l ⟨⟨5, root, .refl 5⟩, p, cell⟩ ⟨#v[2, 5, 6, 7]⟩
      ⟨4, q, _, .child cell' slot (.refl 4), leafCell, rfl⟩ 2 (by decide)
    exact absurd right (by decide)

end CppArt
