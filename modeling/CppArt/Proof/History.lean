/-
**Every history keeps the invariant.**

`Holds` carries the table of leaves; a user sees the reference map, which is the table without the
addresses (`values`), and the elements, which are the entries of the table (`Holds.stored_iff`).

* `init_spec`: the constructor establishes the invariant;
* `perform_spec`: a legal call returns, keeps the invariant and answers as the reference map does;
* `History.holds`: the invariant holds after every history.
-/

import CppArt.Proof.Insert
import CppArt.Proof.Erase
import CppArt.Proof.Lookup

namespace CppArt

open Table

variable {H K V : Type} {n : ℕ} {tr : Traits K V n}

/-! ### The reference map of a table of leaves -/

/-- The table without the addresses. -/
def values (M : Contents n V) : Table Byte n V := fun w => (M w).map Prod.snd

theorem values_eq_some {M : Contents n V} {w : Key n} {v : V} :
    values M w = some v ↔ ∃ it, M w = some (it, v) := by
  simp [values]

@[simp] theorem values_eq_none {M : Contents n V} {w : Key n} : values M w = none ↔ M w = none := by
  simp [values]

@[simp] theorem dom_values (M : Contents n V) : dom (values M) = dom M := by
  ext w
  simp [values]

@[simp] theorem values_empty : values (Table.empty : Contents n V) = Table.empty := rfl

theorem size_values (M : Contents n V) : size (values M) = size M := by
  rw [size, size, dom_values]

theorem values_put (M : Contents n V) (w : Key n) (it : Addr) (x : V) :
    values (put M w (it, x)) = put (values M) w x := by
  funext u
  by_cases same : u = w
  · rw [values, same, put_self, put_self]
    rfl
  · rw [values, put_of_ne _ _ same, put_of_ne _ _ same]
    rfl

theorem values_drop (M : Contents n V) (w : Key n) : values (drop M w) = drop (values M) w := by
  funext u
  by_cases same : u = w
  · rw [values, same, drop_self, drop_self]
    rfl
  · rw [values, drop_of_ne _ same, drop_of_ne _ same]
    rfl

theorem putNew_of_none {m : Table Byte n V} {w : Key n} (absent : m w = none) (x : V) :
    m.putNew w x = put m w x := if_pos absent

theorem putNew_of_some {m : Table Byte n V} {w : Key n} (present : m w ≠ none) (x : V) :
    m.putNew w x = m := if_neg present

theorem dom_putNew (m : Table Byte n V) (w : Key n) (x : V) :
    dom (m.putNew w x) = insert w (dom m) := by
  by_cases absent : m w = none
  · rw [putNew_of_none absent, dom_put]
  · rw [putNew_of_some absent]
    exact (Set.insert_eq_of_mem absent).symm

theorem putNew_keeps {m : Table Byte n V} {w : Key n} {x : V} (present : m w = some x) (w' : Key n) (y : V) :
    m.putNew w' y w = some x := by
  by_cases absent : m w' = none
  · have differ : w ≠ w' := by
      rintro rfl
      exact Option.some_ne_none x (present.symm.trans absent)
    rw [putNew_of_none absent, put_of_ne _ _ differ, present]
  · rw [putNew_of_some absent, present]

/-- The keys of the values of a list. -/
theorem dom_ofList (tr : Traits K V n) (xs : List V) :
    dom (Table.ofList tr xs) = {w | ∃ x ∈ xs, tr.keyOf x = w} := by
  have folded : ∀ (xs : List V) (m : Table Byte n V),
      dom (xs.foldl (fun m x => m.putNew (tr.keyOf x) x) m) = dom m ∪ {w | ∃ x ∈ xs, tr.keyOf x = w} := by
    intro xs
    induction xs with
    | nil => simp
    | cons x xs ih =>
        intro m
        rw [List.foldl_cons, ih, dom_putNew]
        ext w
        simp only [Set.mem_union, Set.mem_insert_iff, Set.mem_ofPred_eq, List.mem_cons,
          exists_eq_or_imp]
        tauto
  rw [Table.ofList, folded, dom_empty, Set.empty_union]

theorem size_putNew_le (m : Table Byte n V) (w : Key n) (x : V) : size (m.putNew w x) ≤ size m + 1 := by
  rw [size, dom_putNew]
  exact Set.ncard_insert_le w (dom m)

/-- Every value of a list adds at most one key. -/
theorem size_ofList_le (tr : Traits K V n) (xs : List V) : size (Table.ofList tr xs) ≤ xs.length := by
  have folded : ∀ (xs : List V) (m : Table Byte n V),
      size (xs.foldl (fun m x => m.putNew (tr.keyOf x) x) m) ≤ size m + xs.length := by
    intro xs
    induction xs with
    | nil => exact fun m => le_rfl
    | cons x xs ih =>
        intro m
        calc size (xs.foldl _ (m.putNew (tr.keyOf x) x))
            ≤ size (m.putNew (tr.keyOf x) x) + xs.length := ih _
          _ ≤ size m + 1 + xs.length := Nat.add_le_add_right (size_putNew_le m _ x) _
          _ = size m + (x :: xs).length := by rw [List.length_cons, Nat.add_assoc, Nat.add_comm 1]
  calc size (Table.ofList tr xs) ≤ size (Table.empty : Table Byte n V) + xs.length := folded xs _
    _ = xs.length := by rw [size_empty, Nat.zero_add]

/-! ### Elements are the entries of the table -/

section Elements

variable [Header H] [HeaderSpec H] {s : St H K V n} {e it : Addr} {M : Contents n V} {own : Set Addr}
  {v : V}

theorem Rep.below_iff {mem : Memory (Cell H V)} {p a : Addr} {d : ℕ} {m : Contents n V}
    (rep : Rep tr mem p a d m own) {q : Option Addr} (leaf : mem.get it = some ⟨q, .leaf v⟩) :
    Below mem a it ↔ m (tr.keyOf v) = some (it, v) := by
  induction rep with
  | @leaf p a d v' cell le =>
      constructor
      · intro below
        cases below with
        | refl =>
            rw [cell, Option.some.injEq, Cell.mk.injEq, Body.leaf.injEq] at leaf
            rw [leaf.2, single_self]
        | child cell' =>
            rw [cell] at cell'
            cases cell'
      · intro entry
        rw [single_apply] at entry
        split_ifs at entry
        obtain ⟨rfl, -⟩ := Prod.mk.inj (Option.some.inj entry)
        exact .refl _
  | @inner p a d m h l sub cell wf fits bound shared describes broad bare kid apart disjoint ih =>
      have here : fiber m (branch h) ((tr.keyOf v).letter (branch h)) (tr.keyOf v) = m (tr.keyOf v) :=
        fiber_of_letter rfl
      constructor
      · intro below
        cases below with
        | refl =>
            rw [cell] at leaf
            cases leaf
        | @child _ c _ _ h' l' b cell' slot rest =>
            rw [cell] at cell'
            cases cell'
            rw [Layout.find_ok wf, Except.ok.injEq] at slot
            have entry := (ih b c slot).mp rest
            have member : tr.keyOf v ∈ dom (fiber m (branch h) b) := mem_dom_of_eq_some entry
            rwa [fiber_of_letter (mem_dom_fiber.mp member).1] at entry
      · intro entry
        rw [← here] at entry
        rcases slot : l.child ((tr.keyOf v).letter (branch h)) with _ | c
        · rw [(bare _ slot).1] at entry
          cases entry
        · exact .child cell (by rw [Layout.find_ok wf, slot]) ((ih _ c slot).mpr entry)

/-- **The elements are the entries of the table.** -/
theorem Holds.stored_iff (holds : Holds tr s e M own) :
    Stored s it v ↔ M (tr.keyOf v) = some (it, v) := by
  constructor
  · rintro ⟨r, p, root, below, leaf⟩
    obtain ⟨rest, ctx, rep, clear, owned⟩ := holds.path root (tr.keyOf v)
    rw [under_zero] at rep
    exact (rep.below_iff leaf).mp below
  · intro entry
    obtain ⟨-, -, -, q, leaf⟩ := holds.entry entry
    rcases root : s.tree.root with _ | r
    · rw [holds.eq_empty root] at entry
      cases entry
    · obtain ⟨rest, ctx, rep, clear, owned⟩ := holds.path root (tr.keyOf v)
      rw [under_zero] at rep
      exact ⟨r, _, root, (rep.below_iff leaf).mpr entry, leaf⟩

theorem Holds.stored_of_entry (holds : Holds tr s e M own) {w : Key n} (entry : M w = some (it, v)) :
    Stored s it v ∧ tr.keyOf v = w := by
  obtain ⟨key, -⟩ := holds.entry entry
  exact ⟨holds.stored_iff.mpr (by rw [key, entry]), key⟩

theorem Holds.isEnd_iff (holds : Holds tr s e M own) : IsEnd s it ↔ it = e := by
  unfold IsEnd
  rw [endIt_spec holds]
  constructor
  · intro same
    cases same
    rfl
  · rintro rfl
    rfl

/-- **The tree represents its reference map.** -/
theorem Holds.represents (holds : Holds tr s e M own) : Represents tr s (values M) where
  entries w v := by
    rw [values_eq_some]
    constructor
    · rintro ⟨it, entry⟩
      exact ⟨it, holds.stored_of_entry entry⟩
    · rintro ⟨it, stored, rfl⟩
      exact ⟨it, holds.stored_iff.mp stored⟩
  unique it it' v v' stored stored' same := by
    have entry := holds.stored_iff.mp stored
    rw [same, holds.stored_iff.mp stored', Option.some.injEq, Prod.mk.injEq] at entry
    exact entry.1.symm

/-- An iterator that designates the first of a set of keys points to it. -/
theorem Holds.pointsTo (holds : Holds tr s e M own) {keys : Set (Key n)}
    (designates : Designates M e keys it) : PointsTo tr s keys it := by
  rcases designates with ⟨w, v, entry, first⟩ | ⟨none, rfl⟩
  · obtain ⟨stored, rfl⟩ := holds.stored_of_entry entry
    exact .inl ⟨v, stored, Dir.isFirst_up_iff.mp first⟩
  · exact .inr ⟨none, holds.isEnd_iff.mpr rfl⟩

/-- And conversely. -/
theorem Holds.designates (holds : Holds tr s e M own) {keys : Set (Key n)}
    (points : PointsTo tr s keys it) : Designates M e keys it := by
  rcases points with ⟨v, stored, least⟩ | ⟨none, atEnd⟩
  · exact .inl ⟨tr.keyOf v, v, holds.stored_iff.mp stored, Dir.isFirst_up_iff.mpr least⟩
  · exact .inr ⟨none, holds.isEnd_iff.mp atEnd⟩

/-- An element is not the end. -/
theorem Holds.ne_end (holds : Holds tr s e M own) (stored : Stored s it v) : ¬ IsEnd s it := by
  obtain ⟨-, -, differ, -⟩ := holds.entry (holds.stored_iff.mp stored)
  exact fun atEnd => differ (holds.isEnd_iff.mp atEnd)

/-- An iterator of a set with a key is not the end. -/
theorem Holds.not_pointsTo_end (holds : Holds tr s e M own) {keys : Set (Key n)} {w : Key n}
    (points : PointsTo tr s keys e) (member : w ∈ keys) : False := by
  rcases points with ⟨v, stored, -⟩ | ⟨none, -⟩
  · exact holds.ne_end stored (holds.isEnd_iff.mpr rfl)
  · rw [none] at member
    exact member

/-- A container with a root is not empty. -/
theorem count_ne_zero (holds : Holds tr s e M own) {r : Addr} (root : s.tree.root = some r) : s.tree.count ≠ 0 := by
  obtain ⟨rest, ctx, rep, -, -⟩ := holds.path root (tr.defaultTransform tr.defaultKey)
  rw [under_zero] at rep
  obtain ⟨w, member⟩ := rep.nonempty
  rw [holds.count, size, Ne, Set.ncard_eq_zero (Set.toFinite _)]
  exact (Set.nonempty_of_mem member).ne_empty

theorem count_eq_zero (holds : Holds tr s e M own) (root : s.tree.root = none) : s.tree.count = 0 := by
  rw [holds.count, holds.eq_empty root]
  simp

theorem count_eq_zero_of_empty (holds : Holds tr s e Table.empty own) : s.tree.count = 0 := by
  rw [holds.count]
  simp

/-- A container that represents no entry has no root. -/
theorem root_eq_none (holds : Holds tr s e Table.empty own) : s.tree.root = none := by
  rcases root : s.tree.root with _ | r
  · rfl
  · exact absurd (count_eq_zero_of_empty holds) (count_ne_zero holds root)

end Elements

/-! ### The constructor -/

/-- **`new _Dummy_Node()`** takes two new addresses. -/
theorem newDummy_spec {s : St H K V n} (calm : s.mem.failAt = none) :
    ∃ mem', newDummy s = .ok s.mem.next (s.withMem mem') ∧
      mem'.get s.mem.next = some ⟨some s.mem.next, .dummy none (s.mem.next + 1)⟩ ∧
      mem'.get (s.mem.next + 1) = some ⟨some s.mem.next, .baseLeaf⟩ ∧
      Memory.Keeps s.mem mem' ∅ ∧ mem'.next = s.mem.next + 2 := by
  let mem₁ := s.mem.alloc (⟨none, .dummy none 0⟩ : Cell H V)
  let mem₂ := mem₁.alloc (⟨some s.mem.next, .baseLeaf⟩ : Cell H V)
  have dummy₂ : mem₂.get s.mem.next = some ⟨none, .dummy none 0⟩ :=
    Memory.alloc_get_of_get (Memory.alloc_get_next _ _) _
  let mem₃ := mem₂.set s.mem.next ⟨some s.mem.next, .dummy none (s.mem.next + 1)⟩
  refine ⟨mem₃, ?_, Memory.set_get_self dummy₂ _, ?_, ⟨Nat.le_add_right _ 2, rfl, fun a _ lt => ?_⟩, rfl⟩
  · unfold newDummy
    rw [Exec.bind_of_ok (new_ok _ calm)]
    refine (Exec.bind_of_ok (onThrow_ok (new_ok (s := s.withMem mem₁) _ calm)) _).trans ?_
    exact Exec.bind_of_ok (store_apply _ _ _) _
  · exact (Memory.set_get_of_ne _ _ (Nat.succ_ne_self _)).trans (Memory.alloc_get_next _ _)
  · have older : a ≠ s.mem.next := lt.ne
    have older' : a ≠ mem₁.next := (lt.trans (Nat.lt_succ_self _)).ne
    exact (Memory.set_get_of_ne _ _ older).trans
      ((Memory.alloc_get_of_ne _ _ older').trans (Memory.alloc_get_of_ne _ _ older))

/-- **`init`** makes an empty container out of new addresses. -/
theorem init_spec [Header H] [HeaderSpec H] (tr : Traits K V n) {mem : Memory (Cell H V)}
    (calm : mem.failAt = none) (tree : Tree K n) (stateless : tree.keyTransform = tr.defaultTransform) :
    ∃ s, init ⟨mem, tree⟩ = .ok ⟨⟩ s ∧
      Holds tr s (mem.next + 1) Table.empty {mem.next, mem.next + 1} ∧
      Memory.Keeps mem s.mem ∅ ∧ Memory.Renews mem s.mem ∅ {mem.next, mem.next + 1} ∧ Tethered s := by
  let s₀ : St H K V n := ⟨mem, { tree with count := 0, root := none }⟩
  obtain ⟨mem', allocated, sentinel, endLeaf, keeps, next⟩ := newDummy_spec (s := s₀) calm
  refine ⟨⟨mem', { tree with count := 0, root := none, dummyNode := mem.next }⟩, ?_,
    ⟨.empty sentinel endLeaf, by simp, stateless, keeps.failAt.trans calm⟩, keeps, ⟨fun a inside => ?_,
    fun a inside live => ?_⟩, _, _, sentinel⟩
  · unfold init
    refine (Exec.bind_of_ok (updateCount_apply _ _) _).trans ?_
    refine (Exec.bind_of_ok (setRoot_apply _ _) _).trans ?_
    exact Exec.bind_of_ok allocated _
  · rcases inside with rfl | rfl
    · exact .inr le_rfl
    · exact .inr (Nat.le_succ _)
  · have new : mem.next ≤ a := inside.resolve_left (Set.notMem_empty a)
    have bound : a < mem'.next := by
      by_contra beyond
      exact live (mem'.bounded a (not_lt.mp beyond))
    rw [next] at bound
    rcases Nat.eq_or_lt_of_le new with same | later
    · exact Or.inl same.symm
    · exact Or.inr (Nat.le_antisymm (Nat.le_of_lt_succ bound) later)

/-! ### Calls and histories -/

section Histories

variable [Variant H] [HeaderSpec H] [LawfulVariant H] {s : St H K V n} {e : Addr} {M : Contents n V}
  {own : Set Addr}

/-- **A legal call** returns, keeps the invariant and answers as the reference map does. The keys that
stay keep their leaves. -/
theorem perform_spec (admits : Admits H n) (holds : Holds tr s e M own) {call : Call K V}
    {m' : Table Byte n V} (effect : call.Effect tr s (values M) m') :
    ∃ answer s' M' own', perform tr call s = .ok answer s' ∧ Holds tr s' e M' own' ∧
      Moves s s' own own' ∧ values M' = m' ∧ call.Answered tr s s' (values M) answer ∧
      ∀ w entry, M w = some entry → m' w ≠ none → M' w = some entry := by
  have put_stays : ∀ {k w : Key n} {entry entry' : Addr × V}, M k = none → M w = some entry →
      put M k entry' w = some entry := by
    intro k w entry entry' absent stored
    refine (put_of_ne M _ ?_).trans stored
    rintro rfl
    rw [absent] at stored
    cases stored
  have drop_stays : ∀ {k w : Key n} {entry : Addr × V}, M w = some entry →
      drop (values M) k w ≠ none → drop M k w = some entry := by
    intro k w entry stored stays
    refine (drop_of_ne M ?_).trans stored
    rintro rfl
    exact stays (drop_self _ _)
  cases effect with
  | insert x =>
      rcases insertUnique_spec admits holds x with
        ⟨it, v, entry, run⟩ | ⟨absent, it, s', own', run, holds', moves⟩
      · obtain ⟨stored, key⟩ := holds.stored_of_entry entry
        have present : values M (tr.keyOf x) ≠ none := by simp [entry]
        refine ⟨.inserted it false, s, M, own, Exec.bind_of_ok run _, holds, Moves.refl s own,
          (putNew_of_some present x).symm, .insert x v it false stored key ?_, fun _ _ same _ => same⟩
        exact ⟨fun new => Bool.noConfusion new, fun absent => absurd absent present⟩
      · have absent' : values M (tr.keyOf x) = none := values_eq_none.mpr absent
        obtain ⟨stored, key⟩ := holds'.stored_of_entry (put_self M (tr.keyOf x) (it, x))
        exact ⟨.inserted it true, s', _, own', Exec.bind_of_ok run _, holds', moves,
          (values_put M _ it x).trans (putNew_of_none absent' x).symm,
          .insert x x it true stored key (iff_of_true rfl absent'), fun _ _ same _ => put_stays absent same⟩
  | emplace x =>
      rcases emplaceUnique_spec admits holds x with
        ⟨it, v, s', entry, run, -, -, holds', moves⟩ | ⟨absent, it, s', own', run, holds', moves⟩
      · obtain ⟨stored, key⟩ := holds'.stored_of_entry entry
        have present : values M (tr.keyOf x) ≠ none := by simp [entry]
        refine ⟨.inserted it false, s', M, own, Exec.bind_of_ok run _, holds', moves,
          (putNew_of_some present x).symm, .emplace x v it false stored key ?_, fun _ _ same _ => same⟩
        exact ⟨fun new => Bool.noConfusion new, fun absent => absurd absent present⟩
      · have absent' : values M (tr.keyOf x) = none := values_eq_none.mpr absent
        obtain ⟨stored, key⟩ := holds'.stored_of_entry (put_self M (tr.keyOf x) (it, x))
        exact ⟨.inserted it true, s', _, own', Exec.bind_of_ok run _, holds', moves,
          (values_put M _ it x).trans (putNew_of_none absent' x).symm,
          .emplace x x it true stored key (iff_of_true rfl absent'),
          fun _ _ same _ => put_stays absent same⟩
  | erase k =>
      have answered : ∀ s', Call.Answered tr s s' (values M) (.erase k)
          (.erased (if values M (tr.defaultTransform k) = none then 0 else 1)) := fun _ => .erase k
      rcases eraseUnique_spec admits holds k with ⟨absent, run⟩ | ⟨present, s', own', run, holds', moves⟩
      · have absent' : values M (tr.defaultTransform k) = none := values_eq_none.mpr absent
        refine ⟨.erased 0, s, M, own, Exec.bind_of_ok run _, holds, Moves.refl s own,
          (drop_of_eq_none absent').symm, ?_, fun _ _ same _ => same⟩
        simpa [absent'] using answered s
      · have present' : ¬ values M (tr.defaultTransform k) = none := by simpa using present
        refine ⟨.erased 1, s', _, own', Exec.bind_of_ok run _, holds', moves, values_drop M _, ?_,
          fun _ _ => drop_stays⟩
        simpa [present'] using answered s'
  | eraseAt it v stored =>
      obtain ⟨next, s', own', run, holds', moves, designates⟩ :=
        eraseAt_spec admits holds (holds.stored_iff.mp stored)
      refine ⟨.next next, s', _, own', Exec.bind_of_ok run _, holds', moves, values_drop M _,
        .eraseAt it next v stored (holds'.pointsTo ?_), fun _ _ => drop_stays⟩
      rw [dom_values]
      refine designates.imp ?_ id
      rintro ⟨w, v', entry, first⟩
      exact ⟨w, v', (drop_of_ne M first.1.2.ne').trans entry, first⟩
  | clear =>
      obtain ⟨s', run, holds', moves, -⟩ := clear_spec holds
      exact ⟨.cleared, s', _, _, Exec.bind_of_ok run _, holds', moves, rfl, .clear,
        fun _ _ _ stays => absurd rfl stays⟩

/-- **The invariant holds after every history.** -/
theorem History.holds (admits : Admits H n) {m : Table Byte n V} (history : History tr s m) :
    ∃ e M own, Holds tr s e M own ∧ values M = m := by
  induction history with
  | @start mem s calm run =>
      obtain ⟨s₁, run₁, holds, -, -⟩ := init_spec tr calm
        (Tree.uninitialised tr.defaultTransform) rfl
      rw [run] at run₁
      cases run₁
      exact ⟨_, _, _, holds, rfl⟩
  | @call s s' m m' call answer _ effect run ih =>
      obtain ⟨e, M, own, holds, rfl⟩ := ih
      obtain ⟨answer₁, s₁, M', own', run₁, holds', -, values', -⟩ := perform_spec admits holds effect
      rw [run] at run₁
      cases run₁
      exact ⟨e, M', own', holds', values'⟩

end Histories

end CppArt
