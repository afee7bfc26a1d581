/-
**Copy-constructing a node.**

* `copyAs_ok`: whatever a copy constructor returns is a copied tree in new addresses (`Copies`), and
  nothing that was there has changed;
* `copyAs_of_fit`: it returns where every node below is fit to be copied.

Both are inductions over the tree that is copied, and for an inner node over the steps of
`copy_children`. The memory of the source is fixed at the start, since later memories only add to it.
-/

import CppArt.Proof.Copies

namespace CppArt

open Table

variable {H K V : Type} {n : ℕ}

/-! ### One step of `copy_children` -/

variable [Variant H]

/-- The loop body of `copy_children`. -/
def copyChild (calls : ℕ) (node : Addr) (step : CopyStep) : Run H K V n Unit := do
  let asked ← deref (← Exec.lift step.asked)
  let childType ← getType asked
  if childType = .dummyNode then throw .unreachable
  else do
    let copied ← deref (← Exec.lift step.copied)
    let child ← copyAs calls childType copied
    storeCopy node step.slot child

omit [Variant H] in
/-- `storeCopy` fills a slot and sets the `_parent` of the copy. -/
theorem storeCopy_ok {node child : Addr} {slot : ℕ} {s : St H K V n} {q : Option Addr} {h : H}
    {l : Layout} {cell : Cell H V} (here : s.mem.get node = some ⟨q, .inner h l⟩)
    (there : s.mem.get child = some cell) (other : child ≠ node) :
    storeCopy node slot child s = .ok ⟨⟩ (s.withMem
      ((s.mem.set node ⟨q, .inner h (l.setSlot slot child)⟩).set child ⟨some node, cell.body⟩)) := by
  unfold storeCopy
  refine (Exec.bind_of_ok (load_ok here) _).trans ?_
  refine (Exec.bind_of_ok (store_apply _ _ _) _).trans ?_
  exact setParent_ok (s := s.withMem _) ((Memory.set_get_of_ne _ _ other).trans there) _

/-- **What a returned copy is**: a copied tree in all of the new addresses. -/
structure Copying (base : Memory (Cell H V)) (s : St H K V n) (x a : Addr) (s' : St H K V n) : Prop where
  tree : s'.tree = s.tree
  keeps : Memory.Keeps s.mem s'.mem ∅
  copies : Copies base s'.mem x a (Memory.fresh s.mem s'.mem)

/-- **A returned step** has copied the child of some byte. -/
theorem copyChild_ok {base : Memory (Cell H V)} {l : Layout} (wf : l.WF) {sub : Byte → Set Addr}
    {calls : ℕ} {node : Addr} {b : Byte} (inside : l.child b ≠ none)
    (kid : ∀ b y, l.child b = some y → ∀ {type : NodeType} {s s' : St H K V n} {a : Addr},
      s.mem.failAt = none → Memory.Same base s.mem (sub b) → copyAs calls type y s = .ok a s' →
      Copying base s y a s')
    {s s' : St H K V n} {q : Option Addr} {h : H} {l₁ : Layout} (calm : s.mem.failAt = none)
    (same : ∀ b, Memory.Same base s.mem (sub b)) (here : s.mem.get node = some ⟨q, .inner h l₁⟩)
    (run : copyChild calls node ⟨l.slotOf b, .ok (l.child b), l.copied b⟩ s = .ok ⟨⟩ s') :
    ∃ (copy : CopiedKid) (y : Addr), l.child copy.source = some y ∧ (copy.source = b ↔ l.AlignedAt b) ∧
      s'.tree = s.tree ∧ Memory.Keeps s.mem s'.mem {node} ∧
      s'.mem.get node = some ⟨q, .inner h (l₁.setSlot (l.slotOf b) copy.addr)⟩ ∧
      (∃ body, s'.mem.get copy.addr = some ⟨some node, body⟩) ∧
      Copies base s'.mem y copy.addr copy.own ∧ copy.own = Memory.fresh s.mem s'.mem := by
  obtain ⟨x, t, lifted, run₁⟩ := Exec.bind_eq_ok.mp run
  obtain ⟨-, rfl⟩ := lift_eq_ok lifted
  obtain ⟨asked, t, pointed, run₂⟩ := Exec.bind_eq_ok.mp run₁
  obtain ⟨-, rfl⟩ := deref_eq_ok pointed
  obtain ⟨type, t, typed, run₃⟩ := Exec.bind_eq_ok.mp run₂
  obtain rfl := getType_eq_ok typed
  split_ifs at run₃
  · cases run₃
  obtain ⟨x, t, lifted', run₄⟩ := Exec.bind_eq_ok.mp run₃
  obtain ⟨source, rfl⟩ := lift_eq_ok lifted'
  obtain ⟨y, t, pointed', run₅⟩ := Exec.bind_eq_ok.mp run₄
  obtain ⟨rfl, rfl⟩ := deref_eq_ok pointed'
  obtain ⟨child, t, copied, run₆⟩ := Exec.bind_eq_ok.mp run₅
  obtain ⟨b', slot, aligned⟩ := Layout.source_of_copied wf inside source
  obtain ⟨tree, keeps, copied'⟩ := kid b' y slot calm (same b') copied
  obtain ⟨own, new, copies⟩ : ∃ own, own = Memory.fresh _ t.mem ∧ Copies base t.mem y child own :=
    ⟨_, rfl, copied'⟩
  have nodeLt := Memory.lt_next_of_get here
  have here' : t.mem.get node = some ⟨q, .inner h l₁⟩ :=
    (keeps.get node (Set.notMem_empty node) nodeLt).trans here
  have other : child ≠ node := by
    rintro rfl
    exact absurd (new ▸ copies.top_mem).1 (not_le.mpr nodeLt)
  obtain ⟨⟨p, body⟩, there⟩ := copies.top_cell
  rw [storeCopy_ok here' there other] at run₆
  cases run₆
  let mem₁ := t.mem.set node ⟨q, .inner h (l₁.setSlot (l.slotOf b) child)⟩
  have there' : mem₁.get child = some ⟨p, body⟩ := (Memory.set_get_of_ne _ _ other).trans there
  have framed : Copies base mem₁ y child own := copies.frame fun a member => by
    refine Memory.set_get_of_ne _ _ ?_
    rintro rfl
    exact absurd (new ▸ member).1 (not_le.mpr nodeLt)
  refine ⟨⟨child, b', own⟩, y, slot, aligned, tree, ?_, ?_, ⟨body, Memory.set_get_self there' _⟩,
    framed.reparent there' (Memory.set_get_self there' _) fun a member =>
      Memory.set_get_of_ne _ _ member.2, new⟩
  · refine ((keeps.mono (Set.empty_subset {node})).trans
      (Memory.keeps_set _ _ (Set.mem_singleton node)) fun a => .inl).trans
      (Memory.keeps_set _ _ (Set.mem_singleton child)) ?_
    rintro a rfl
    exact .inr (new ▸ copies.top_mem).1
  · exact (Memory.set_get_of_ne _ _ other.symm).trans (Memory.set_get_self here' _)

/-- A copied child of a node at `node`: where it comes from and what it is. -/
structure KidOf (base mem : Memory (Cell H V)) (l : Layout) (node : Addr) (b : Byte) (copy : CopiedKid) :
    Prop where
  origin : l.child copy.source ≠ none ∧ (copy.source = b ↔ l.AlignedAt b)
  parent : ∃ body, mem.get copy.addr = some ⟨some node, body⟩
  copies : ∀ y, l.child copy.source = some y → Copies base mem y copy.addr copy.own

/-- The slots and the children after some steps of `copy_children`. -/
structure Filled (base : Memory (Cell H V)) (l : Layout) (node : Addr) (bytes : List Byte)
    (l₁ l₂ : Layout) (mem mem' : Memory (Cell H V)) (kids : Byte → CopiedKid) : Prop where
  skeleton : l₂.withoutChildren = l.withoutChildren
  slot : ∀ b ∈ bytes, l₂.entryAt (l.slotOf b) = some (kids b).addr
  other : ∀ i, (∀ b ∈ bytes, l.slotOf b ≠ i) → l₂.entryAt i = l₁.entryAt i
  kid : ∀ b ∈ bytes, KidOf base mem' l node b (kids b)
  new : ∀ b, (kids b).own ⊆ Memory.fresh mem mem'
  all : ∀ a ∈ Memory.fresh mem mem', ∃ b, a ∈ (kids b).own
  bare : ∀ b, b ∉ bytes → (kids b).own = ∅
  disjoint : ∀ b b', b ≠ b' → Disjoint (kids b).own (kids b').own

theorem KidOf.frame {base mem mem' : Memory (Cell H V)} {l : Layout} {node : Addr} {b : Byte}
    {copy : CopiedKid} (kid : KidOf base mem l node b copy) (same : Memory.Same mem mem' copy.own) :
    KidOf base mem' l node b copy := by
  obtain ⟨y, there⟩ := Option.ne_none_iff_exists'.mp kid.origin.1
  obtain ⟨body, here⟩ := kid.parent
  exact ⟨kid.origin, ⟨body, (same _ (kid.copies y there).top_mem).trans here⟩,
    fun y there => (kid.copies y there).frame same⟩

omit [Variant H] in
theorem Memory.fresh_mono {mem mem' mem'' : Memory (Cell H V)} (le : mem'.next ≤ mem''.next) :
    Memory.fresh mem mem' ⊆ Memory.fresh mem mem'' :=
  fun _ inside => ⟨inside.1, inside.2.trans_le le⟩

/-- One more step, before the others. -/
theorem Filled.cons {base mem mem₁ mem' : Memory (Cell H V)} {l l₁ l₂ : Layout} {node : Addr} {b : Byte}
    {bytes : List Byte} {kids : Byte → CopiedKid} {copy : CopiedKid} (wf : l.WF)
    (present : ∀ b' ∈ b :: bytes, l.child b' ≠ none) (absent : b ∉ bytes)
    (skeleton : l₁.withoutChildren = l.withoutChildren) (kid : KidOf base mem₁ l node b copy)
    (new : copy.own = Memory.fresh mem mem₁) (le : mem.next ≤ mem₁.next) (old : node < mem.next)
    (keeps : Memory.Keeps mem₁ mem' {node})
    (filled : Filled base l node bytes (l₁.setSlot (l.slotOf b) copy.addr) l₂ mem₁ mem' kids) :
    Filled base l node (b :: bytes) l₁ l₂ mem mem' (Function.update kids b copy) := by
  have rest : ∀ b', b' ≠ b → Function.update kids b copy b' = kids b' := fun b' other =>
    Function.update_of_ne other _ _
  have here : Function.update kids b copy b = copy := Function.update_self _ _ _
  have kept : Memory.Same mem₁ mem' copy.own := by
    intro y inside
    rw [new] at inside
    refine keeps.get y ?_ inside.2
    rintro rfl
    exact absurd inside.1 (not_le.mpr old)
  have apart : ∀ b', Disjoint copy.own (kids b').own := fun b' =>
    Set.disjoint_left.mpr fun y inside inside' =>
      absurd (filled.new b' inside').1 (not_le.mpr (new ▸ inside).2)
  refine ⟨filled.skeleton, fun b' inside => ?_, fun i off => ?_, fun b' inside => ?_, fun b' => ?_,
    fun a inside => ?_, fun b' outside => ?_, fun b₁ b₂ differ => ?_⟩
  · rcases List.mem_cons.mp inside with rfl | later
    · rw [here, filled.other]
      · exact Layout.entryAt_setSlot_self wf (present _ List.mem_cons_self) skeleton _
      · intro b₂ inside₂ same
        exact absent (Layout.slotOf_inj wf (present _ (List.mem_cons_of_mem _ inside₂))
          (present _ List.mem_cons_self) same ▸ inside₂)
    · rw [rest b' fun same => absent (same ▸ later)]
      exact filled.slot b' later
  · rw [filled.other i fun b' inside => off b' (List.mem_cons_of_mem _ inside)]
    exact Layout.entryAt_setSlot_of_ne (off b List.mem_cons_self).symm _ _
  · rcases List.mem_cons.mp inside with rfl | later
    · rw [here]
      exact kid.frame kept
    · rw [rest b' fun same => absent (same ▸ later)]
      exact filled.kid b' later
  · by_cases same : b' = b
    · rw [same, here]
      exact new.le.trans (Memory.fresh_mono keeps.next_le)
    · rw [rest b' same]
      exact fun y inside => ⟨le.trans (filled.new b' inside).1, (filled.new b' inside).2⟩
  · rcases lt_or_ge a mem₁.next with mine | later
    · exact ⟨b, by rw [here, new]; exact ⟨inside.1, mine⟩⟩
    · obtain ⟨b', inside'⟩ := filled.all a ⟨later, inside.2⟩
      have other : b' ≠ b := by
        rintro rfl
        rw [filled.bare b' absent] at inside'
        exact inside'
      exact ⟨b', by rwa [rest b' other]⟩
  · rw [List.mem_cons, not_or] at outside
    rw [rest b' outside.1]
    exact filled.bare b' outside.2
  · by_cases same₁ : b₁ = b
    · rw [same₁, here, rest b₂ fun same₂ => differ (same₁.trans same₂.symm)]
      exact apart b₂
    · by_cases same₂ : b₂ = b
      · rw [same₂, here, rest b₁ same₁]
        exact (apart b₁).symm
      · rw [rest b₁ same₁, rest b₂ same₂]
        exact filled.disjoint b₁ b₂ differ

/-- **The loop of `copy_children`**, when it returns, has filled the slots. -/
theorem copyLoop_ok {base : Memory (Cell H V)} {l : Layout} (wf : l.WF) {sub : Byte → Set Addr}
    {calls : ℕ} {node : Addr}
    (kid : ∀ b y, l.child b = some y → ∀ {type : NodeType} {s s' : St H K V n} {a : Addr},
      s.mem.failAt = none → Memory.Same base s.mem (sub b) → copyAs calls type y s = .ok a s' →
      Copying base s y a s')
    (apart : ∀ b, node ∉ sub b) (bytes : List Byte) :
    ∀ {s s' : St H K V n} {q : Option Addr} {h : H} {l₁ : Layout}, bytes.Nodup →
      (∀ b ∈ bytes, l.child b ≠ none) → s.mem.failAt = none → (∀ b, Memory.Same base s.mem (sub b)) →
      (∀ b, ∀ y ∈ sub b, y < s.mem.next) → s.mem.get node = some ⟨q, .inner h l₁⟩ →
      l₁.withoutChildren = l.withoutChildren →
      (bytes.map fun b => (⟨l.slotOf b, .ok (l.child b), l.copied b⟩ : CopyStep)).forM
        (copyChild calls node) s = .ok ⟨⟩ s' →
      s'.tree = s.tree ∧ Memory.Keeps s.mem s'.mem {node} ∧ ∃ kids l₂,
        s'.mem.get node = some ⟨q, .inner h l₂⟩ ∧ Filled base l node bytes l₁ l₂ s.mem s'.mem kids := by
  induction bytes with
  | nil =>
      intro s s' q h l₁ _ _ _ _ _ here skeleton run
      cases run
      exact ⟨rfl, Memory.Keeps.refl _ _, fun _ => ⟨0, 0, ∅⟩, l₁, here, skeleton, by simp, by simp, by simp,
        fun _ => Set.empty_subset _, fun a inside => absurd inside.1 inside.2.not_ge, fun _ _ => rfl, fun _ _ _ => Set.disjoint_empty ∅⟩
  | cons b bytes ih =>
      intro s s' q h l₁ nodup present calm same old here skeleton run
      obtain ⟨absent, nodup'⟩ := List.nodup_cons.mp nodup
      obtain ⟨⟨⟩, s₁, first, rest⟩ := Exec.bind_eq_ok.mp run
      obtain ⟨copy, y, slot, aligned, tree, keeps, here₁, parent, copies, new⟩ :=
        copyChild_ok wf (present b List.mem_cons_self) kid calm same here first
      have same₁ : ∀ b, Memory.Same base s₁.mem (sub b) := fun b => (same b).trans
        fun y inside => keeps.get y (fun equal => apart b (equal ▸ inside)) (old b y inside)
      obtain ⟨tree', keeps', kids, l₂, here₂, filled⟩ := ih nodup'
        (fun b' inside => present b' (List.mem_cons_of_mem b inside)) (keeps.failAt.trans calm) same₁
        (fun b y inside => (old b y inside).trans_le keeps.next_le) here₁
        ((Layout.withoutChildren_setSlot _ _ _).trans skeleton) rest
      refine ⟨tree'.trans tree, keeps.trans keeps' fun a => .inl, _, l₂, here₂,
        filled.cons wf present absent skeleton ⟨⟨slot ▸ Option.some_ne_none y, aligned⟩, parent, ?_⟩ new
          keeps.next_le (Memory.lt_next_of_get here) keeps'⟩
      intro y' there
      rw [slot, Option.some.injEq] at there
      exact there ▸ copies

/-! ### The whole tree -/

section Trees

variable [HeaderSpec H] {tr : Traits K V n} {base : Memory (Cell H V)} {p x : Addr} {d : ℕ}
  {m : Contents n V} {own : Set Addr}

/-- What a node owns is allocated in a memory that agrees with the one of the node. -/
theorem Rep.lt_next_of_same (rep : Rep tr base p x d m own) {mem : Memory (Cell H V)}
    (same : Memory.Same base mem own) {y : Addr} (inside : y ∈ own) : y < mem.next := by
  obtain ⟨cell, here⟩ := rep.live y inside
  exact Memory.lt_next_of_get ((same y inside).trans here)

/-- **What a copy constructor returns** is a copied tree. -/
theorem copyAs_ok (rep : Rep tr base p x d m own) :
    ∀ {calls : ℕ} {type : NodeType} {s s' : St H K V n} {a : Addr}, s.mem.failAt = none →
      Memory.Same base s.mem own → copyAs calls type x s = .ok a s' → Copying base s x a s' := by
  induction rep with
  | @leaf p x d v cell le =>
      intro calls type s s' a calm same run
      cases calls with
      | zero => cases run
      | succ calls =>
          rw [copyAs, Exec.bind_of_ok (load_ok ((same x rfl).trans cell))] at run
          simp only [] at run
          split_ifs at run
          · rw [new_ok _ calm] at run
            cases run
            have one : Memory.fresh s.mem (s.mem.alloc ⟨none, .leaf v⟩) = {s.mem.next} := by
              ext y
              exact ⟨fun inside => le_antisymm (Nat.le_of_lt_succ inside.2) inside.1,
                fun same => ⟨same.ge, Nat.lt_succ_of_le same.le⟩⟩
            refine ⟨rfl, Memory.keeps_alloc _ _ _, ?_⟩
            exact one ▸ .leaf cell (Memory.alloc_get_next _ _)
          · cases run
  | @inner p x d m h l sub cell wf fits bound shared describes broad bare kid apart disjoint ih =>
      intro calls type s s' a calm same run
      have rep := Rep.inner cell wf fits bound shared describes broad bare kid apart disjoint
      cases calls with
      | zero => cases run
      | succ calls =>
          rw [copyAs, Exec.bind_of_ok (load_ok ((same x (Set.mem_insert x _)).trans cell))] at run
          simp only [] at run
          split_ifs at run with typed
          · rw [Exec.bind_of_ok (new_ok _ calm)] at run
            obtain ⟨⟨⟩, s₁, looped, finish⟩ := Exec.bind_eq_ok.mp run
            cases finish
            have loop := onThrow_eq_ok looped
            rw [Layout.copySteps_eq wf] at loop
            have below : ∀ b, Memory.Same base s.mem (sub b) := fun b =>
              same.mono fun y inside => mem_around_of_sub inside
            have old : ∀ b, ∀ y ∈ sub b, y < s.mem.next := fun b y inside =>
              rep.lt_next_of_same same (mem_around_of_sub inside)
            obtain ⟨tree, keeps, kids, l₂, here, filled⟩ := copyLoop_ok (s := s.withMem (s.mem.alloc
                ⟨some p, .inner (copiedHeader type h) l.withoutChildren⟩)) wf
              (fun b y slot {_ _ _ _} calm same run => ih b y slot calm same run)
              (fun b inside => absurd (old b _ inside) (lt_irrefl _)) l.byteList
              (Layout.nodup_byteList wf) (fun b => (Layout.mem_byteList wf b).mp) calm
              (fun b y inside => (Memory.alloc_get_of_ne _ _ (old b y inside).ne).trans (below b y inside))
              (fun b y inside => (old b y inside).trans (Nat.lt_succ_self _)) (Memory.alloc_get_next _ _)
              (Layout.withoutChildren_withoutChildren l) loop
            have outside : ∀ i, l.withoutChildren.entryAt i = none := Layout.entryAt_withoutChildren l
            obtain ⟨wf', children⟩ := Layout.refill wf filled.skeleton (fun b => (kids b).addr)
              (fun b inside => filled.slot b ((Layout.mem_byteList wf b).mpr inside)) fun i c entry => by
                by_contra none
                rw [filled.other i fun b listed equal =>
                  none ⟨b, (Layout.mem_byteList wf b).mp listed, equal⟩, outside] at entry
                cases entry
            have new : ∀ b, (kids b).own ⊆ Memory.fresh s.mem s'.mem := fun b y inside =>
              ⟨(Nat.le_succ _).trans (filled.new b inside).1, (filled.new b inside).2⟩
            have kidOf : ∀ b, l.child b ≠ none → KidOf base s'.mem l s.mem.next b (kids b) :=
              fun b inside => filled.kid b ((Layout.mem_byteList wf b).mpr inside)
            have all : insert s.mem.next (⋃ b, (kids b).own) = Memory.fresh s.mem s'.mem := by
              ext y
              constructor
              · rintro (rfl | inside)
                · exact ⟨le_rfl, (Nat.lt_succ_self _).trans_le keeps.next_le⟩
                · obtain ⟨b, inside⟩ := Set.mem_iUnion.mp inside
                  exact new b inside
              · intro inside
                rcases Nat.eq_or_lt_of_le inside.1 with same | later
                · exact Or.inl same.symm
                · obtain ⟨b, inside'⟩ := filled.all y ⟨later, inside.2⟩
                  exact Or.inr (Set.mem_iUnion.mpr ⟨b, inside'⟩)
            refine ⟨tree, (Memory.keeps_alloc s.mem _ ∅).trans keeps ?_, all ▸
              .inner cell (typed ▸ here) wf' filled.skeleton children (fun b inside => (kidOf b inside).origin)
                (fun b inside => (kidOf b inside).parent) (fun b none => filled.bare b fun listed =>
                  (Layout.mem_byteList wf b).mp listed none)
                (fun b y inside there => (kidOf b inside).copies y there) (fun b inside => ?_)
                filled.disjoint⟩
            · rintro y rfl
              exact .inr le_rfl
            · exact absurd (filled.new b inside).1 (Nat.not_succ_le_self _)
          · cases run

/-! ### Where every node is fit to be copied -/

/-- The type of a node is known where its cell is. -/
theorem Rep.getType_ok (rep : Rep tr base p x d m own) {s : St H K V n}
    (same : Memory.Same base s.mem own) : ∃ type, getType x s = .ok type s ∧ type ≠ .dummyNode := by
  rcases rep.inspect with ⟨v, cell, -⟩ | ⟨h, l, cell, -⟩
  · exact ⟨.leaf, getType_leaf ((same x rep.top_mem).trans cell), by simp⟩
  · exact ⟨l.getType, getType_inner ((same x rep.top_mem).trans cell), (layout_getType_ne l).2⟩

/-- **A step returns** where the slot of its byte is aligned. -/
theorem copyChild_of_fit {l : Layout} (wf : l.WF) {calls : ℕ} {node c : Addr} {b : Byte}
    (slot : l.child b = some c) (aligned : l.AlignedAt b) {s : St H K V n} {q : Option Addr} {h : H}
    {l₁ : Layout} (calm : s.mem.failAt = none) (rep : Rep tr base p c d m own)
    (same : Memory.Same base s.mem own)
    (returns : ∀ type, getType c s = .ok type s → ∃ a s', copyAs calls type c s = .ok a s')
    (here : s.mem.get node = some ⟨q, .inner h l₁⟩) :
    ∃ s', copyChild calls node ⟨l.slotOf b, .ok (l.child b), l.copied b⟩ s = .ok ⟨⟩ s' := by
  obtain ⟨type, typed, notDummy⟩ := rep.getType_ok same
  obtain ⟨child, s₁, copied⟩ := returns type typed
  obtain ⟨-, keeps, copies⟩ := copyAs_ok rep calm same copied
  have nodeLt := Memory.lt_next_of_get here
  have other : child ≠ node := by
    rintro rfl
    exact absurd copies.top_mem.1 (not_le.mpr nodeLt)
  obtain ⟨cell, there⟩ := copies.top_cell
  have here₁ := (keeps.get node (Set.notMem_empty node) nodeLt).trans here
  refine ⟨s₁.withMem ((s₁.mem.set node ⟨q, .inner h (l₁.setSlot (l.slotOf b) child)⟩).set child
    ⟨some node, cell.body⟩), ?_⟩
  unfold copyChild
  rw [slot, Layout.copied_of_aligned wf slot aligned]
  refine (Exec.bind_of_ok (Exec.lift_ok (some c) s) _).trans ?_
  refine (Exec.bind_of_ok typed _).trans ?_
  rw [if_neg notDummy]
  refine (Exec.bind_of_ok (Exec.lift_ok (some c) s) _).trans ?_
  exact (Exec.bind_of_ok copied _).trans (storeCopy_ok here₁ there other)

/-- **The loop returns** where the slots are aligned. -/
theorem copyLoop_of_fit {l : Layout} (wf : l.WF) {sub : Byte → Set Addr} {calls : ℕ} {node : Addr}
    {r : ℕ} (aligned : ∀ b, l.child b ≠ none → l.AlignedAt b)
    (kid : ∀ b c, l.child b = some c → Rep tr base x c (r + 1) (fiber m r b) (sub b))
    (returns : ∀ b c, l.child b = some c → ∀ (s : St H K V n), s.mem.failAt = none →
      Memory.Same base s.mem (sub b) → ∀ type, getType c s = .ok type s →
      ∃ a s', copyAs calls type c s = .ok a s')
    (apart : ∀ b, node ∉ sub b) (bytes : List Byte) :
    ∀ {s : St H K V n} {q : Option Addr} {h : H} {l₁ : Layout}, (∀ b ∈ bytes, l.child b ≠ none) →
      s.mem.failAt = none → (∀ b, Memory.Same base s.mem (sub b)) →
      (∀ b, ∀ y ∈ sub b, y < s.mem.next) → s.mem.get node = some ⟨q, .inner h l₁⟩ →
      ∃ s', (bytes.map fun b => (⟨l.slotOf b, .ok (l.child b), l.copied b⟩ : CopyStep)).forM
        (copyChild calls node) s = .ok ⟨⟩ s' := by
  induction bytes with
  | nil =>
      intro s q h l₁ _ _ _ _ _
      exact ⟨s, rfl⟩
  | cons b bytes ih =>
      intro s q h l₁ present calm same old here
      have inside := present b List.mem_cons_self
      obtain ⟨c, slot⟩ := Option.ne_none_iff_exists'.mp inside
      obtain ⟨s₁, first⟩ := copyChild_of_fit wf slot (aligned b inside) calm (kid b c slot) (same b)
        (returns b c slot s calm (same b)) here
      obtain ⟨copy, y, -, -, -, keeps, here₁, -⟩ := copyChild_ok wf inside
        (fun b y there {_ _ _ _} calm same run => copyAs_ok (kid b y there) calm same run) calm same here
        first
      have same₁ : ∀ b, Memory.Same base s₁.mem (sub b) := fun b => (same b).trans
        fun y inside => keeps.get y (fun equal => apart b (equal ▸ inside)) (old b y inside)
      obtain ⟨s', rest⟩ := ih (fun b' inside => present b' (List.mem_cons_of_mem b inside))
        (keeps.failAt.trans calm) same₁ (fun b y inside => (old b y inside).trans_le keeps.next_le) here₁
      exact ⟨s', (Exec.bind_of_ok first _).trans rest⟩

/-- **A copy constructor returns** where every node below is fit to be copied. -/
theorem copyAs_of_fit (rep : Rep tr base p x d m own) :
    ∀ {calls : ℕ} {s : St H K V n}, n < calls + d → s.mem.failAt = none →
      Memory.Same base s.mem own →
      (∀ z q h l, Below base x z → base.get z = some ⟨q, .inner h l⟩ → l.Aligned) →
      ∀ type, getType x s = .ok type s → ∃ a s', copyAs calls type x s = .ok a s' := by
  induction rep with
  | @leaf p x d v cell le =>
      intro calls s enough calm same fit type typed
      obtain ⟨calls, rfl⟩ : ∃ c, calls = c + 1 := ⟨calls - 1, by omega⟩
      have here := (same x rfl).trans cell
      rw [getType_leaf here] at typed
      cases typed
      refine ⟨s.mem.next, s.withMem (s.mem.alloc ⟨none, .leaf v⟩), ?_⟩
      rw [copyAs, Exec.bind_of_ok (load_ok here)]
      exact new_ok _ calm
  | @inner p x d m h l sub cell wf fits bound shared describes broad bare kid apart disjoint ih =>
      intro calls s enough calm same fit type typed
      have rep := Rep.inner cell wf fits bound shared describes broad bare kid apart disjoint
      obtain ⟨v, member⟩ := rep.nonempty
      have le : d ≤ branch h := HeaderSpec.depth_le (describes v member)
      obtain ⟨calls, rfl⟩ : ∃ c, calls = c + 1 := ⟨calls - 1, by omega⟩
      have here := (same x (Set.mem_insert x _)).trans cell
      rw [getType_inner here] at typed
      cases typed
      have deeper : n < calls + (branch h + 1) := by omega
      have old : ∀ b, ∀ y ∈ sub b, y < s.mem.next := fun b y inside =>
        rep.lt_next_of_same same (mem_around_of_sub inside)
      have below : ∀ b, Memory.Same base s.mem (sub b) := fun b =>
        same.mono fun y inside => mem_around_of_sub inside
      obtain ⟨s', loop⟩ := copyLoop_of_fit (s := s.withMem (s.mem.alloc
          ⟨some p, .inner (copiedHeader l.getType h) l.withoutChildren⟩)) wf
        ((Layout.aligned_iff wf).mp (fit x _ h l (.refl x) cell)) kid
        (fun b c slot s calm same type typed => ih b c slot deeper calm same
          (fun z q h l reached => fit z q h l (.child cell ((Layout.find_eq_some wf).mpr slot) reached))
          type typed)
        (fun b inside => absurd (old b _ inside) (lt_irrefl _)) l.byteList
        (fun b => (Layout.mem_byteList wf b).mp) calm
        (fun b y inside => (Memory.alloc_get_of_ne _ _ (old b y inside).ne).trans (below b y inside))
        (fun b y inside => (old b y inside).trans (Nat.lt_succ_self _)) (Memory.alloc_get_next _ _)
      rw [← Layout.copySteps_eq wf] at loop
      refine ⟨s.mem.next, s', ?_⟩
      rw [copyAs, Exec.bind_of_ok (load_ok here)]
      simp only [if_true]
      refine (Exec.bind_of_ok (new_ok _ calm) _).trans ?_
      exact (Exec.bind_of_ok (onThrow_ok loop) _).trans rfl

end Trees

end CppArt
