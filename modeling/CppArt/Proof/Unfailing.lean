/-
**No branch fails.**

A run of the model stops with a fault where the code would index an array outside its bounds, dereference
a null pointer or a deleted object, or reach a `throw;` with no exception in flight. The invariant excludes
all of them: the operations return. That a node has room where a child is inserted is stated about the
loop of the insertions with any continuation (`insertLoop_room`), which is all that both of them do before
they call `insert`.

* `advance_ok`: `++` and `--` from every element. `--` from the first one comes to the sentinel and goes
  on from the maximum of the tree;
* `Holds.unfailing`, `no_branch_fails`: all operations, after every history.
-/

import CppArt.Proof.Shape
import CppArt.Proof.Refinement

namespace CppArt

open Table

variable {H K V : Type} {n : ℕ}

/-! ### The arrays of a node -/

/-- **A node stays inside its arrays**: lookups, the scans for a byte in use and, while there is room, the
scan for a free slot end. -/
structure Layout.Safe (l : Layout) : Prop where
  count : 0 < l.count ∧ l.count ≤ l.maxSize
  find : ∀ b, ∃ c, l.find b = .ok c
  extremeChild : ∀ dir, ∃ c, l.extremeChild dir = .ok c
  childBeyond : ∀ dir b, ∃ c, l.childBeyond dir b = .ok c
  insert : ∀ b node, l.find b = .ok none → l.count < l.maxSize → ∃ l', l.insert b node = .ok l'
  erase : ∀ b c, l.find b = .ok (some c) → ∃ l', l.erase b = .ok (some c, l')
  updateChildPtr : ∀ b c node, l.find b = .ok (some c) → ∃ l', l.updateChildPtr b node = .ok l'

theorem Layout.safe {l : Layout} (wf : l.WF) (fits : l.Fits l.count) : l.Safe where
  count := ⟨fits.1, fits.2.1⟩
  find b := ⟨_, find_ok wf b⟩
  extremeChild dir := by
    obtain ⟨b, c, run, -⟩ := extremeChild_spec wf fits.1 dir
    exact ⟨c, run⟩
  childBeyond dir b := by
    rcases childBeyond_spec wf dir b with ⟨run, -⟩ | ⟨b', c, run, -⟩
    · exact ⟨_, run⟩
    · exact ⟨_, run⟩
  insert b node absent room := by
    rw [find_ok wf, Except.ok.injEq] at absent
    obtain ⟨l', run, -⟩ := insert_spec wf node room absent
    exact ⟨l', run⟩
  erase b c present := by
    rw [find_ok wf, Except.ok.injEq] at present
    obtain ⟨l', run, -⟩ := erase_spec wf present
    exact ⟨l', run⟩
  updateChildPtr b c node present := by
    rw [find_ok wf, Except.ok.injEq] at present
    obtain ⟨l', run, -⟩ := updateChildPtr_spec wf node present
    exact ⟨l', run⟩

/-! ### `++` and `--` -/

section Climb

variable [Header H] [HeaderSpec H] {tr : Traits K V n} {s : St H K V n} {M : Contents n V}
  {S : Set (Key n)} {k : Key n} {e r p c : Addr} {d : ℕ} {own : Set Addr}

/-- **The climb ends** at a node with a child beyond the key, or at the sentinel. -/
theorem neighbourFrom_ok {root : Option Addr} {dm : Addr} (ctx : Ctx tr s.mem dm e root k M S p c d own)
    (dir : Dir) (turns : ∃ it, root.elim (pure e) (extreme .down) s = .ok it s) :
    ∀ calls, d < calls → ∃ it, neighbourFrom dir k calls p s = .ok it s := by
  induction ctx with
  | top sentinel endLeaf link =>
      intro calls enough
      obtain ⟨calls, rfl⟩ : ∃ c, calls = c + 1 := ⟨calls - 1, by omega⟩
      rw [neighbourFrom, Exec.bind_of_ok (load_ok sentinel), link]
      rw [link] at turns
      cases dir with
      | up => exact ⟨e, rfl⟩
      | down => exact turns
  | @step p a c d own h l sub outer node slot fits broad clear ih =>
      intro calls enough
      have le := node.depth_le
      obtain ⟨calls, rfl⟩ : ∃ c, calls = c + 1 := ⟨calls - 1, by omega⟩
      rcases node.beyond dir calls with ⟨same, -⟩ | ⟨w, it, v, run, -⟩
      · rw [same]
        exact ih calls (by omega)
      · exact ⟨it, run⟩

/-- **`++` and `--` return** from every element. -/
theorem advance_ok {it : Addr} {v : V} (holds : Holds tr s e M own) (stored : Stored s it v) (dir : Dir) :
    ∃ it', advance tr dir it s = .ok it' s := by
  have entry := holds.stored_iff.mp stored
  rcases root : s.tree.root with _ | r
  · rw [holds.eq_empty root] at entry
    cases entry
  · obtain ⟨rest, ctx, rep, clear, owned⟩ := holds.path root (tr.keyOf v)
    obtain ⟨q, d, own', ctx', cell, -, -, -⟩ := Ctx.locate entry (n + 1) (by omega) ctx rep clear
    have turns : ∃ it, s.tree.root.elim (pure e) (extreme .down) s = .ok it s := by
      obtain ⟨w, it, v, run, -⟩ := extreme_spec rep .down
      exact ⟨it, by rw [root]; exact run⟩
    unfold advance
    rw [Exec.bind_of_ok (parentOf_ok cell)]
    simp only [deref_some, Exec.pure_bind_apply]
    by_cases top : q = s.tree.dummyNode
    · obtain ⟨-, sentinel, -⟩ := ctx.sentinel
      rw [top, Exec.bind_of_ok (getType_dummy sentinel), if_pos rfl]
      show ∃ it', neighbourFrom dir _ (n + 2) _ s = .ok it' s
      rw [neighbourFrom, Exec.bind_of_ok (load_ok sentinel)]
      rw [root] at turns ⊢
      cases dir with
      | up => exact ⟨e, rfl⟩
      | down => exact turns
    · have climb := neighbourFrom_ok ctx' dir turns (levels n)
        (by have := ctx'.depth_le; unfold levels; omega)
      cases ctx' with
      | top => exact absurd rfl top
      | step outer node slot fits broad clear' =>
          rw [Exec.bind_of_ok (getType_inner node.cell), if_neg (layout_getType_ne _).2,
            Exec.bind_of_ok (leafValue_ok cell)]
          exact climb

end Climb

/-! ### Room for a child -/

variable [Variant H] [HeaderSpec H] [LawfulVariant H] {tr : Traits K V n} {s : St H K V n}
  {M : Contents n V} {e : Addr} {own : Set Addr}

/-- **The loop of the insertions**, with any continuation, ends at the leaf of an equal key or at an inner
node with room, in the slot of an index of the key. -/
def Roomy (tr : Traits K V n) (s : St H K V n) : Prop :=
  ∀ (key : Key n) (r : Addr) (limit : ℕ), s.tree.root = some r → n ≤ limit →
    ∀ (α : Type) (duplicate : Addr → Run H K V n α) (place : Addr → ℤ → Run H K V n α),
      (∃ it, insertLoop tr limit key duplicate place (n + 1) 0 (some r) s.tree.dummyNode s
        = duplicate it s) ∨
      ∃ (q : Addr) (index : ℕ) (s' : St H K V n) (p : Option Addr) (h : H) (l : Layout),
        insertLoop tr limit key duplicate place (n + 1) 0 (some r) s.tree.dummyNode s
          = place q index s' ∧
        s'.mem.get q = some ⟨p, .inner h l⟩ ∧ branch h = index ∧ index < n ∧
        l.find (key.letter index) = .ok none ∧ l.count < l.maxSize

theorem insertLoop_room (admits : Admits H n) (holds : Holds tr s e M own) : Roomy tr s := by
  intro key r limit root enough α duplicate place
  obtain ⟨rest, ctx, rep, clear, -⟩ := holds.path root key
  have loop : (∃ it v, M key = some (it, v) ∧
        insertLoop tr limit key duplicate place (n + 1) 0 (some r) s.tree.dummyNode s = duplicate it s) ∨
      ∃ (q : Addr) (index : ℕ) (s' : St H K V n) (own' : Set Addr),
        insertLoop tr limit key duplicate place (n + 1) 0 (some r) s.tree.dummyNode s = place q index s' ∧
        Opened tr s' e key M q index own' ∧ s.Frame s' ({s.tree.dummyNode, e} ∪ rest) ∧
        Memory.Renews s.mem s'.mem ({s.tree.dummyNode, e} ∪ rest) own' :=
    insertLoop_spec admits enough holds.stateless holds.calm (n + 1) (by omega) ctx rep clear
  rcases loop with ⟨it, v, -, run⟩ | ⟨q, index, s', own', run, opened, -⟩
  · exact .inl ⟨it, run⟩
  · cases opened with
    | intro outer node missing vacant room broad clear' =>
        refine .inr ⟨q, _, s', _, _, _, run, node.cell, rfl, node.bound, ?_, room.2.1⟩
        rw [Layout.find_ok node.wf, missing]

/-! ### All operations -/

/-- **Every operation returns**: no fault is reached, in particular none of the `throw;`, and every index
is inside its array. -/
structure Unfailing (tr : Traits K V n) (s : St H K V n) : Prop where
  insert : ∀ x, ∃ answer s', insertUnique tr x s = .ok answer s'
  emplace : ∀ x, ∃ answer s', emplaceUnique tr x s = .ok answer s'
  erase : ∀ k, ∃ count s', eraseUnique tr k s = .ok count s'
  eraseAt : ∀ it v, Stored s it v → ∃ next s', CppArt.eraseAt tr it s = .ok next s'
  find : ∀ k, ∃ it, CppArt.find tr k s = .ok it s
  advance : ∀ dir it v, Stored s it v → ∃ it', CppArt.advance tr dir it s = .ok it' s
  room : Roomy tr s
  nodes : ∀ a h l, IsInner s a h l → branch h < n ∧ l.Safe

theorem Holds.unfailing (admits : Admits H n) (holds : Holds tr s e M own) : Unfailing tr s where
  insert x := by
    rcases insertUnique_spec admits holds x with ⟨it, v, -, run⟩ | ⟨-, it, s', own', run, -⟩
    · exact ⟨_, _, run⟩
    · exact ⟨_, _, run⟩
  emplace x := by
    rcases emplaceUnique_spec admits holds x with ⟨it, v, s', -, run, -⟩ | ⟨-, it, s', own', run, -⟩
    · exact ⟨_, _, run⟩
    · exact ⟨_, _, run⟩
  erase k := by
    rcases eraseUnique_spec admits holds k with ⟨-, run⟩ | ⟨-, s', own', run, -⟩
    · exact ⟨_, _, run⟩
    · exact ⟨_, _, run⟩
  eraseAt it v stored := by
    obtain ⟨answer, s', M', own', run, -⟩ := perform_spec admits holds (.eraseAt it v stored)
    obtain ⟨next, t, erased, -⟩ := Exec.bind_eq_ok.mp run
    exact ⟨next, t, erased⟩
  find k := ⟨_, find_spec holds k⟩
  advance dir it v stored := advance_ok holds stored dir
  room := insertLoop_room admits holds
  nodes a h l inner := by
    obtain ⟨reached, q, cell⟩ := inner
    obtain ⟨p, d, m', own', rep, -⟩ := holds.at_reached reached
    obtain ⟨sub, parts, -, -⟩ := rep.parts cell
    exact ⟨parts.bound, Layout.safe parts.wf parts.fits⟩

/-- **No branch fails** in either container, for keys of 1 to 65536 bytes. -/
theorem no_branch_fails :
    (∀ {K V : Type} {n : ℕ} (tr : Traits K V n) (s : ArTree.State K V n) (m : Table Byte n V),
      History tr s m → Unfailing tr s) ∧
    ∀ {K V : Type} {n : ℕ} (tr : Traits K V n) (s : ArPrefixTree.State K V n) (m : Table Byte n V),
      n ≤ 65536 → History tr s m → Unfailing tr s := by
  refine ⟨fun tr s m history => ?_, fun tr s m fits history => ?_⟩
  · obtain ⟨e, M, own, holds, -⟩ := history.holds trivial
    exact holds.unfailing trivial
  · obtain ⟨e, M, own, holds, -⟩ := history.holds fits
    exact holds.unfailing fits

/-- Two keys in either container. -/
theorem no_branch_fails_pair :
    (∃ s, insertAll (Traits.identity 2) [⟨#v[1, 2]⟩, ⟨#v[1, 3]⟩]
        (blankState DepthHeader (Traits.identity 2)) = .ok ⟨⟩ s ∧ Unfailing (Traits.identity 2) s) ∧
    ∃ s, insertAll (Traits.identity 2) [⟨#v[1, 2]⟩, ⟨#v[1, 3]⟩]
        (blankState PrefixHeader (Traits.identity 2)) = .ok ⟨⟩ s ∧ Unfailing (Traits.identity 2) s := by
  have fits : 2 ≤ 65536 := by decide
  obtain ⟨s, run, history⟩ := insertAll_history (H := DepthHeader) trivial (Traits.identity 2)
    [⟨#v[1, 2]⟩, ⟨#v[1, 3]⟩]
  obtain ⟨s', run', history'⟩ := insertAll_history (H := PrefixHeader) fits (Traits.identity 2)
    [⟨#v[1, 2]⟩, ⟨#v[1, 3]⟩]
  exact ⟨⟨s, run, no_branch_fails.1 _ s _ history⟩, s', run', no_branch_fails.2 _ s' _ fits history'⟩

end CppArt
