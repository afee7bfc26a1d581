/-
**What the member functions do with addresses.**

* `relocated`: among foreign cells they do what they do without them;
* `pointers_allocated`: they never make an address up.
-/

import CppArt.Proof.Refinement
import CppArt.Proof.Relocation

namespace CppArt

variable {H K V : Type} {n : ℕ} {f g : Addr → Addr}

/-! ### States that a renaming leaves as they are -/

theorem map_pointers {size : ℕ} {v : Vector (Option Addr) size} :
    v.map (Option.map f) = v.map (Option.map g) ↔ ∀ p ∈ v.toList.reduceOption, f p = g p := by
  rw [Vector.map_inj_left]
  constructor
  · intro same p inside
    exact Option.some.inj (same (some p) (Vector.mem_toList_iff.mp (List.reduceOption_mem_iff.mp inside)))
  · intro same slot inside
    cases slot with
    | none => rfl
    | some p =>
        exact congrArg some (same p (List.reduceOption_mem_iff.mpr (Vector.mem_toList_iff.mpr inside)))

theorem Layout.rename_inj {l : Layout} : l.rename f = l.rename g ↔ ∀ p ∈ l.pointers, f p = g p := by
  cases l with
  | node4 nd | node16 nd | node48 nd | node256 nd =>
      rw [Layout.pointers, ← map_pointers]
      simp [rename, SortedNode.rename, Node48.rename, Node256.rename]

theorem Cell.rename_inj {cell : Cell H V} :
    cell.rename f = cell.rename g ↔ ∀ p ∈ cell.pointers, f p = g p := by
  rcases cell with ⟨_ | p, body⟩ <;> cases body with
  | dummy root e => cases root <;> simp [rename, pointers, Body.rename, Body.pointers]
  | _ => simp [rename, pointers, Body.rename, Body.pointers, Layout.rename_inj]

theorem Tree.rename_inj {tree : Tree K n} : tree.rename f = tree.rename g ↔ ∀ p ∈ tree.pointers, f p = g p := by
  rcases tree with ⟨t, count, d, _ | root⟩ <;> simp [rename, pointers]

theorem Layout.rename_id (l : Layout) : l.rename id = l := by
  cases l with
  | node4 nd | node16 nd | node48 nd | node256 nd =>
      simp [rename, SortedNode.rename, Node48.rename, Node256.rename]

theorem Cell.rename_id (cell : Cell H V) : cell.rename id = cell := by
  rcases cell with ⟨p, body⟩
  cases body <;> simp [rename, Body.rename, Layout.rename_id]

theorem Tree.rename_id (tree : Tree K n) : tree.rename id = tree := by
  cases tree
  simp [rename]

theorem Cell.rename_eq_self {cell : Cell H V} : cell.rename g = cell ↔ ∀ p ∈ cell.pointers, g p = p := by
  have inj := @Cell.rename_inj H V g id cell
  rwa [Cell.rename_id] at inj

theorem Tree.rename_eq_self {tree : Tree K n} : tree.rename g = tree ↔ ∀ p ∈ tree.pointers, g p = p := by
  have inj := @Tree.rename_inj K n g id tree
  rwa [Tree.rename_id] at inj

section Closed

variable {s : St H K V n} {ρ : Shift} {foreign : Addr → Option (Cell H V)}

/-- The cells of a closed state, under a renaming that keeps what has been allocated. -/
theorem St.Closed.rename_cells (closed : s.Closed) (keeps : ∀ a < s.mem.next, g a = a) (a : Addr) :
    (s.mem.get a).map (Cell.rename g) = s.mem.get a := by
  rcases here : s.mem.get a with _ | cell
  · rfl
  · rw [Option.map_some, Cell.rename_eq_self.mpr fun p inside => keeps p (closed.cells a cell here p inside)]

theorem St.Closed.rename_tree (closed : s.Closed) (keeps : ∀ a < s.mem.next, g a = a) :
    s.tree.rename g = s.tree :=
  Tree.rename_eq_self.mpr fun p inside => keeps p (closed.tree p inside)

/-- A gap among the addresses that are still to come changes nothing. -/
theorem St.Closed.spread_eq_self (closed : s.Closed) (ahead : ρ.past = false) (le : s.mem.next ≤ ρ.start) :
    s.spread ρ foreign = s := by
  have inside : s.mem.next ∈ ρ.span := by
    unfold Shift.span
    rw [ahead]
    exact le
  have keeps : ∀ a < s.mem.next, ρ.move a = a := fun a lt => Shift.move_of_lt (lt.trans_le le)
  have idle : ρ.next = id := by
    funext k
    unfold Shift.next
    rw [ahead]
    rfl
  refine congrArg₂ St.mk (Memory.ext_spread inside (fun b => ?_) (fun a low _ => ?_) ?_ ?_).symm
    (closed.rename_tree keeps)
  · rw [closed.rename_cells keeps]
    by_cases lt : b < s.mem.next
    · rw [keeps b lt]
    · rw [s.mem.bounded b (not_lt.mp lt)]
      refine s.mem.bounded _ ((not_lt.mp lt).trans ?_)
      unfold Shift.move
      split_ifs
      · exact le_rfl
      · exact Nat.le_add_right _ _
  · rw [ahead, s.mem.bounded a (le.trans low)]
    rfl
  · rw [idle]
    rfl
  · rw [idle, Option.map_id]
    rfl

/-- A state that does not change when a gap is opened ahead is closed. -/
theorem St.closed_of_spread (same : s.spread ⟨s.mem.next, 1, false⟩ foreign = s) : s.Closed := by
  have fixed : ∀ p : ℕ, (⟨s.mem.next, 1, false⟩ : Shift).move p = p → p < s.mem.next := by
    intro p still
    by_contra ge
    rw [Shift.move_of_le (not_lt.mp ge)] at still
    exact Nat.succ_ne_self p still
  have inside : s.mem.next ∈ (⟨s.mem.next, 1, false⟩ : Shift).span := le_refl s.mem.next
  constructor
  · intro a cell here p pointer
    have lt := Memory.lt_next_of_get here
    have moved : (s.spread _ foreign).mem.get _ = _ := Memory.spread_get inside a
    rw [same, Shift.move_of_lt lt, here] at moved
    exact fixed p (Cell.rename_eq_self.mp (Option.some.inj moved).symm p pointer)
  · intro p pointer
    exact fixed p (Tree.rename_eq_self.mp (congrArg St.tree same) p pointer)

/-- **A computation that does not depend on addresses makes none up.** -/
theorem St.Closed.final {α : Type} {p : Run H K V n α} {f : Shift → α → α}
    (follows : ∀ ρ : Shift, ρ.past = false → s.mem.next ≤ ρ.start → Follows ρ (fun _ => none) (f ρ) p p)
    (closed : s.Closed) :
    (Exec.final (p s)).Closed ∧ ∀ a t, p s = .ok a t → f ⟨t.mem.next, 1, false⟩ a = a := by
  have grows : s.mem.next ≤ (Exec.final (p s)).mem.next := (follows ⟨s.mem.next, 1, false⟩ rfl le_rfl).grows s
  have same : p s = Exec.mapResult (St.spread ⟨(Exec.final (p s)).mem.next, 1, false⟩ fun _ => none)
      (f ⟨(Exec.final (p s)).mem.next, 1, false⟩) (p s) := by
    have same := (follows ⟨_, 1, false⟩ rfl grows).same s grows (le_refl (Exec.final (p s)).mem.next)
    rwa [closed.spread_eq_self rfl grows] at same
  constructor
  · have final := congrArg Exec.final same
    rw [Exec.final_mapResult] at final
    exact St.closed_of_spread final.symm
  · intro a t run
    rw [run] at same
    exact (EStateM.Result.ok.inj same).1.symm

end Closed

/-! ### The member functions -/

/-- The call of an iterator that is kept is renamed to itself. -/
theorem Call.rename_eq_self {call : Call K V} (keeps : ∀ p ∈ call.pointers, g p = p) :
    call.rename g = call := by
  cases call with
  | eraseAt it => exact congrArg Call.eraseAt (keeps it (List.mem_singleton_self it))
  | insert | emplace | erase | clear => rfl

theorem Lookup.rename_eq_self {query : Lookup K} (keeps : ∀ p ∈ query.pointers, g p = p) :
    query.rename g = query := by
  cases query with
  | advance dir it => exact congrArg (Lookup.advance dir) (keeps it (List.mem_singleton_self it))
  | find | bound | first | last => rfl

theorem Answer.pointers_of_rename {answer : Answer} (same : answer.rename g = answer) :
    ∀ p ∈ answer.pointers, g p = p := by
  cases answer with
  | inserted it fresh =>
      intro p inside
      rw [List.mem_singleton.mp inside]
      exact (Answer.inserted.inj same).1
  | next it =>
      intro p inside
      rw [List.mem_singleton.mp inside]
      exact Answer.next.inj same
  | erased | cleared =>
      intro p inside
      exact absurd inside List.not_mem_nil

/-- An address that a gap ahead does not move has been allocated. -/
theorem Shift.lt_of_move_eq {start a : ℕ} (same : (⟨start, 1, false⟩ : Shift).move a = a) : a < start := by
  by_contra ge
  rw [Shift.move_of_le (not_lt.mp ge)] at same
  exact Nat.succ_ne_self a same

section Members

variable [Variant H] [RelocatableVariant H] {ρ : Shift} {foreign : Addr → Option (Cell H V)}
variable {tr : Traits K V n} {s s' : St H K V n}

theorem follows_perform (call : Call K V) :
    Follows ρ foreign (Answer.rename ρ.move) (perform tr call : Run H K V n Answer)
      (perform tr (call.rename ρ.move)) := by
  cases call with
  | insert x => exact (follows_insertUnique tr x).bind fun r => Exec.Tracks.pure _ (Answer.inserted r.1 r.2)
  | emplace x => exact (follows_emplaceUnique tr x).bind fun r => Exec.Tracks.pure _ (Answer.inserted r.1 r.2)
  | erase k => exact (follows_eraseUnique tr k).bind fun count => Exec.Tracks.pure _ (Answer.erased count)
  | eraseAt it => exact (follows_eraseAt tr it).bind fun next => Exec.Tracks.pure _ (Answer.next next)
  | clear => exact follows_clear.bind fun _ => Exec.Tracks.pure _ Answer.cleared

theorem follows_look (query : Lookup K) :
    Follows ρ foreign ρ.move (look tr query : Run H K V n Addr) (look tr (query.rename ρ.move)) := by
  cases query with
  | find k => exact follows_find tr k
  | bound accept k => exact follows_bound tr accept k
  | first => exact follows_beginIt
  | last => exact follows_endIt
  | advance dir it => exact follows_advance tr dir it

/-- **A container among foreign cells.** -/
theorem relocates (past : ρ.past = true) (le : ρ.start ≤ s.mem.next) : Relocates tr ρ foreign s := by
  have span : ∀ k, ρ.start ≤ k → k ∈ ρ.span := by
    intro k le
    unfold Shift.span
    rw [past]
    exact le
  constructor
  · intro cs
    have follows : Follows ρ foreign _ (cs.mapM (perform tr) : Run H K V n _) _ :=
      Exec.Tracks.mapM follows_perform cs
    exact follows.same s (span _ le) (span _ (le.trans (follows.grows s)))
  · intro query
    have follows : Follows ρ foreign _ (look tr query : Run H K V n _) _ := follows_look query
    exact follows.same s (span _ le) (span _ (le.trans (follows.grows s)))

/-- **One call** leaves no pointer to an address that has not been allocated. -/
theorem St.Closed.perform (closed : s.Closed) (call : Call K V) (within : ∀ p ∈ call.pointers, p < s.mem.next) :
    (Exec.final (perform tr call s)).Closed ∧ ∀ answer t, CppArt.perform tr call s = .ok answer t →
      ∀ p ∈ answer.pointers, p < t.mem.next := by
  have follows (ρ : Shift) (_ : ρ.past = false) (le : s.mem.next ≤ ρ.start) :
      Follows ρ (fun _ => none) (Answer.rename ρ.move) (CppArt.perform tr call : Run H K V n Answer)
        (CppArt.perform tr call) := by
    have same : call.rename ρ.move = call := Call.rename_eq_self fun p inside =>
      Shift.move_of_lt ((within p inside).trans_le le)
    have follows : Follows ρ (fun _ => none) _ (CppArt.perform tr call : Run H K V n Answer) _ :=
      follows_perform call
    rwa [same] at follows
  refine (closed.final follows).imp_right fun fixed answer t run p inside => ?_
  exact Shift.lt_of_move_eq (Answer.pointers_of_rename (fixed answer t run) p inside)

/-- **One lookup** returns no address that has not been allocated. -/
theorem St.Closed.look (closed : s.Closed) (query : Lookup K)
    (within : ∀ p ∈ query.pointers, p < s.mem.next) {it : Addr} {t : St H K V n}
    (run : look tr query s = .ok it t) : it < t.mem.next := by
  have follows (ρ : Shift) (_ : ρ.past = false) (le : s.mem.next ≤ ρ.start) :
      Follows ρ (fun _ => none) ρ.move (CppArt.look tr query : Run H K V n Addr) (CppArt.look tr query) := by
    have same : query.rename ρ.move = query := Lookup.rename_eq_self fun p inside =>
      Shift.move_of_lt ((within p inside).trans_le le)
    have follows : Follows ρ (fun _ => none) _ (CppArt.look tr query : Run H K V n Addr) _ :=
      follows_look query
    rwa [same] at follows
  exact Shift.lt_of_move_eq ((closed.final follows).2 it t run)

/-- **A run of calls** leaves no pointer to an address that has not been allocated. -/
theorem Ran.keepsClosed (ran : Ran tr s s') (closed : s.Closed) : KeepsClosed tr s' := by
  have closed' : s'.Closed := by
    induction ran with
    | start => exact closed
    | @returned s' t call answer _ within run holds =>
        have final : (Exec.final (perform tr call s')).Closed := (holds.perform call within).1
        rwa [run] at final
    | @thrown s' t call _ a within run holds =>
        have armed : (s'.arm a).Closed := ⟨holds.cells, holds.tree⟩
        have final : (Exec.final (perform tr call (s'.arm a))).Closed := (armed.perform call within).1
        rwa [run] at final
  exact ⟨closed', fun call answer t within run => (closed'.perform call within).2 answer t run,
    fun query it t within run => closed'.look query within run⟩

end Members

/-- **A new container is closed.** -/
theorem closed_init {mem : Memory (Cell H V)} {tree : Tree K n} {s : St H K V n} (calm : mem.failAt = none)
    (cells : ClosedCells mem) (run : init ⟨mem, tree⟩ = .ok ⟨⟩ s) : s.Closed := by
  let s₀ : St H K V n := ⟨mem, { tree with count := 0, root := none }⟩
  obtain ⟨mem', allocated, sentinel, endLeaf, keeps, next⟩ := newDummy_spec (s := s₀) calm
  have made : init ⟨mem, tree⟩
      = .ok ⟨⟩ (⟨mem', { tree with count := 0, root := none, dummyNode := mem.next }⟩ : St H K V n) := by
    unfold init
    refine (Exec.bind_of_ok (updateCount_apply _ _) _).trans ?_
    refine (Exec.bind_of_ok (setRoot_apply _ _) _).trans ?_
    exact Exec.bind_of_ok allocated _
  cases made.symm.trans run
  have bound : ∀ a < mem.next + 2, a < mem'.next := fun a lt => lt.trans_eq next.symm
  constructor
  · intro a cell here p inside
    have lt : a < mem.next + 2 := (Memory.lt_next_of_get here).trans_eq next
    apply bound
    rcases Nat.lt_or_ge a mem.next with old | new
    · rw [keeps.get a (Set.notMem_empty a) old] at here
      exact (cells a cell here p inside).trans (Nat.lt_add_of_pos_right Nat.two_pos)
    · rcases Nat.eq_or_lt_of_le new with rfl | new'
      · cases sentinel.symm.trans here
        rcases List.mem_pair.mp inside with rfl | rfl
        · exact Nat.lt_add_of_pos_right Nat.two_pos
        · exact Nat.lt_succ_self _
      · have second : a = mem.next + 1 := Nat.le_antisymm (Nat.le_of_lt_succ lt) new'
        rw [second] at here
        cases endLeaf.symm.trans here
        rw [List.mem_singleton.mp inside]
        exact Nat.lt_add_of_pos_right Nat.two_pos
  · intro p inside
    rw [List.mem_singleton.mp inside]
    exact bound _ (Nat.lt_add_of_pos_right Nat.two_pos)

/-! ### The results -/

/-- **The containers do not depend on the addresses of their nodes**, and touch no other cell: among
foreign cells, in front of the nodes or between them, every call and every lookup does what it does
without them, also when it fails. -/
theorem relocated {K V : Type} {n : ℕ} (tr : Traits K V n) {ρ : Shift} (past : ρ.past = true) :
    (∀ (foreign : Addr → Option (Cell DepthHeader V)) (s : ArTree.State K V n),
      ρ.start ≤ s.mem.next → Relocates tr ρ foreign s) ∧
    ∀ (foreign : Addr → Option (Cell PrefixHeader V)) (s : ArPrefixTree.State K V n),
      ρ.start ≤ s.mem.next → Relocates tr ρ foreign s :=
  ⟨fun _ _ le => relocates past le, fun _ _ le => relocates past le⟩

/-- **A closed container with one element.** -/
theorem exists_single [Variant H] [HeaderSpec H] [LawfulVariant H] [RelocatableVariant H]
    (admits : Admits H n) (tr : Traits K V n) (x : V) : ∃ (s : St H K V n) (it : Addr),
      History tr s (Table.empty.putNew (tr.keyOf x) x) ∧ s.Closed ∧ Stored s it x := by
  obtain ⟨s₀, founded, history₀⟩ :=
    History.started tr (rfl : (Memory.blank : Memory (Cell H V)).failAt = none)
  have closed₀ : s₀.Closed := closed_init rfl (fun _ _ here => by cases here) founded
  obtain ⟨answer, s, run, -⟩ := (history₀.refines admits).perform _ _ (.insert x)
  have history := history₀.call (.insert x) run
  have closed : (Exec.final (perform tr (.insert x) s₀)).Closed :=
    (closed₀.perform (.insert x) fun _ none => by cases none).1
  rw [run] at closed
  obtain ⟨e, M, own, holds, table⟩ := history.holds admits
  have entry : values M (tr.keyOf x) = some x := by
    rw [table]
    exact Table.put_self _ _ _
  obtain ⟨it, stored, -⟩ := (holds.represents.entries _ _).mp entry
  exact ⟨s, it, history, closed, stored⟩

/-- Containers with an element behind a cell at the lowest address. -/
theorem relocated_behind :
    (∃ (s : ArTree.State (Key 1) (Key 1) 1) (it : Addr), Stored s it ⟨#v[7]⟩ ∧
      Relocates (Traits.identity 1) ⟨0, 1, true⟩ (fun _ => some ⟨none, .baseLeaf⟩) s) ∧
    ∃ (s : ArPrefixTree.State (Key 1) (Key 1) 1) (it : Addr), Stored s it ⟨#v[7]⟩ ∧
      Relocates (Traits.identity 1) ⟨0, 1, true⟩ (fun _ => some ⟨none, .baseLeaf⟩) s := by
  obtain ⟨s, it, -, -, stored⟩ := exists_single (H := DepthHeader) trivial (Traits.identity 1) ⟨#v[7]⟩
  obtain ⟨s', it', -, -, stored'⟩ := exists_single (H := PrefixHeader) (by decide : 1 ≤ 65536)
    (Traits.identity 1) ⟨#v[7]⟩
  exact ⟨⟨s, it, stored, (relocated _ rfl).1 _ s (Nat.zero_le _)⟩,
    s', it', stored', (relocated _ rfl).2 _ s' (Nat.zero_le _)⟩

/-- **No address is made up.** Whatever calls have been made, also if some of them threw an exception, every
pointer in memory is to an address that has been allocated, also in the slots of an array that are not in
use, and so is every iterator that is returned. -/
theorem pointers_allocated {K V : Type} {n : ℕ} (tr : Traits K V n) :
    (∀ s s' : ArTree.State K V n, s.Closed → Ran tr s s' → KeepsClosed tr s') ∧
    ∀ s s' : ArPrefixTree.State K V n, s.Closed → Ran tr s s' → KeepsClosed tr s' :=
  ⟨fun _ _ closed ran => ran.keepsClosed closed, fun _ _ closed ran => ran.keepsClosed closed⟩

/-- An insertion, one whose last allocation fails behind the split of a leaf, and another
attempt. -/
theorem pointers_allocated_thrown :
    (∃ s₀ s₁ s₂ s₃ : ArTree.State (Key 1) (Key 1) 1,
      init (blankState DepthHeader (Traits.identity 1)) = .ok ⟨⟩ s₀ ∧
      perform (Traits.identity 1) (.insert ⟨#v[7]⟩) s₀ = .ok (.inserted 2 true) s₁ ∧
      perform (Traits.identity 1) (.insert ⟨#v[9]⟩) (s₁.arm 4) = .error .badAlloc s₂ ∧
      perform (Traits.identity 1) (.insert ⟨#v[9]⟩) s₂ = .ok (.inserted 4 true) s₃ ∧
      KeepsClosed (Traits.identity 1) s₃) ∧
    ∃ s₀ s₁ s₂ s₃ : ArPrefixTree.State (Key 1) (Key 1) 1,
      init (blankState PrefixHeader (Traits.identity 1)) = .ok ⟨⟩ s₀ ∧
      perform (Traits.identity 1) (.insert ⟨#v[7]⟩) s₀ = .ok (.inserted 2 true) s₁ ∧
      perform (Traits.identity 1) (.insert ⟨#v[9]⟩) (s₁.arm 4) = .error .badAlloc s₂ ∧
      perform (Traits.identity 1) (.insert ⟨#v[9]⟩) s₂ = .ok (.inserted 4 true) s₃ ∧
      KeepsClosed (Traits.identity 1) s₃ := by
  have blank {H : Type} : ClosedCells (Memory.blank : Memory (Cell H (Key 1))) :=
    fun _ _ none => by cases none
  constructor
  · obtain ⟨s₀, founded⟩ : ∃ s₀ : ArTree.State (Key 1) (Key 1) 1,
        init (blankState DepthHeader (Traits.identity 1)) = .ok ⟨⟩ s₀ := ⟨_, rfl⟩
    have closed : s₀.Closed := closed_init rfl blank founded
    obtain ⟨s₁, s₂, s₃, first, thrown, again⟩ : ∃ s₁ s₂ s₃ : ArTree.State (Key 1) (Key 1) 1,
        perform (Traits.identity 1) (.insert ⟨#v[7]⟩) s₀ = .ok (.inserted 2 true) s₁ ∧
        perform (Traits.identity 1) (.insert ⟨#v[9]⟩) (s₁.arm 4) = .error .badAlloc s₂ ∧
        perform (Traits.identity 1) (.insert ⟨#v[9]⟩) s₂ = .ok (.inserted 4 true) s₃ := by
      cases founded
      exact ⟨_, _, _, rfl, rfl, rfl⟩
    have ran₁ : Ran (Traits.identity 1) s₀ s₁ := Ran.start.returned (fun _ none => by cases none) first
    have ran₂ : Ran (Traits.identity 1) s₀ s₂ := ran₁.thrown 4 (fun _ none => by cases none) thrown
    have ran₃ : Ran (Traits.identity 1) s₀ s₃ := ran₂.returned (fun _ none => by cases none) again
    exact ⟨s₀, s₁, s₂, s₃, founded, first, thrown, again,
      (pointers_allocated _).1 s₀ s₃ closed ran₃⟩
  · obtain ⟨s₀, founded⟩ : ∃ s₀ : ArPrefixTree.State (Key 1) (Key 1) 1,
        init (blankState PrefixHeader (Traits.identity 1)) = .ok ⟨⟩ s₀ := ⟨_, rfl⟩
    have closed : s₀.Closed := closed_init rfl blank founded
    obtain ⟨s₁, s₂, s₃, first, thrown, again⟩ : ∃ s₁ s₂ s₃ : ArPrefixTree.State (Key 1) (Key 1) 1,
        perform (Traits.identity 1) (.insert ⟨#v[7]⟩) s₀ = .ok (.inserted 2 true) s₁ ∧
        perform (Traits.identity 1) (.insert ⟨#v[9]⟩) (s₁.arm 4) = .error .badAlloc s₂ ∧
        perform (Traits.identity 1) (.insert ⟨#v[9]⟩) s₂ = .ok (.inserted 4 true) s₃ := by
      cases founded
      exact ⟨_, _, _, rfl, rfl, rfl⟩
    have ran₁ : Ran (Traits.identity 1) s₀ s₁ := Ran.start.returned (fun _ none => by cases none) first
    have ran₂ : Ran (Traits.identity 1) s₀ s₂ := ran₁.thrown 4 (fun _ none => by cases none) thrown
    have ran₃ : Ran (Traits.identity 1) s₀ s₃ := ran₂.returned (fun _ none => by cases none) again
    exact ⟨s₀, s₁, s₂, s₃, founded, first, thrown, again,
      (pointers_allocated _).2 s₀ s₃ closed ran₃⟩

end CppArt
