/-
**Operations on containers that throw.**

Until it throws, an operation runs as if no allocation were to fail. What a copy has written by then are
nodes of its own (`Kept`), and a node whose children cannot all be copied is freed again. `Guarded` says
both of a computation, and it composes along a run (`Guarded.bind`, `Guarded.construct`).

* `guarded_copyAs`: the copy constructors of the nodes, by induction over the calls and the children;
* `copyAssign_thrown`: the target is empty and the source is as it was;
* `Tried.sound`, `family_survives`: containers that have thrown can be used like any others.
-/

import CppArt.Model.Throwing
import CppArt.Proof.Failure
import CppArt.Proof.Family

namespace CppArt

open Table

variable {H K V : Type} {n : ℕ} {α β : Type}

/-! ### Computations that write to new nodes only -/

/-- **What a computation keeps** that writes from the address `b` on. -/
structure Kept (b : Addr) (s t : St H K V n) : Prop where
  tree : t.tree = s.tree
  keeps : Memory.Keeps s.mem t.mem (Set.Ici b)
  live : ∀ a, s.mem.get a ≠ none → t.mem.get a ≠ none

theorem Kept.refl (b : Addr) (s : St H K V n) : Kept b s s :=
  ⟨rfl, Memory.Keeps.refl _ _, fun _ live => live⟩

theorem Kept.trans {b : Addr} {s t u : St H K V n} (one : Kept b s t) (two : Kept b t u) : Kept b s u :=
  ⟨two.tree.trans one.tree, one.keeps.trans two.keeps fun _ inside => .inl inside,
    fun a live => two.live a (one.live a live)⟩

theorem Kept.calm {b : Addr} {s t : St H K V n} (kept : Kept b s t) (calm : s.mem.failAt = none) :
    t.mem.failAt = none :=
  kept.keeps.failAt.trans calm

theorem Kept.le {b : Addr} {s t : St H K V n} (kept : Kept b s t) (le : b ≤ s.mem.next) :
    b ≤ t.mem.next :=
  le.trans kept.keeps.next_le

/-- **A computation that writes from the address `b` on**: where an allocation is set to fail, it either
does not get there and returns what it returns otherwise, or it throws. -/
def Guarded (b : Addr) (p : Run H K V n α) (s : St H K V n) : Prop :=
  s.mem.failAt = none → b ≤ s.mem.next → ∀ k,
    (∀ x t', p (s.arm k) = .ok x t' → ∃ t, t' = t.arm k ∧ p s = .ok x t ∧ Kept b s t) ∧
    ∀ t, p (s.arm k) = .error .badAlloc t → Kept b s t

theorem Guarded.bind {b : Addr} {p : Run H K V n α} {q : α → Run H K V n β} {s : St H K V n}
    (first : Guarded b p s) (rest : ∀ x t, p s = .ok x t → b ≤ t.mem.next → Guarded b (q x) t) :
    Guarded b (p >>= q) s := by
  intro calm le k
  obtain ⟨returns, throws⟩ := first calm le k
  rcases run : p (s.arm k) with ⟨x, t'⟩ | ⟨fault, t'⟩
  · obtain ⟨t, rfl, run', kept⟩ := returns x t' run
    obtain ⟨returns', throws'⟩ := rest x t run' (kept.le le) (kept.calm calm) (kept.le le) k
    rw [Exec.bind_of_ok run, Exec.bind_of_ok run']
    refine ⟨fun y u' more => ?_, fun u more => kept.trans (throws' u more)⟩
    obtain ⟨u, same, more', kept'⟩ := returns' y u' more
    exact ⟨u, same, more', kept.trans kept'⟩
  · rw [Exec.bind_of_error run]
    refine ⟨fun y u' more => ?_, fun u more => ?_⟩
    · cases more
    · cases more
      exact throws _ run

/-- What has thrown is the first computation or the one that follows it. -/
theorem Guarded.thrown_bind {b k : Addr} {p : Run H K V n α} {q : α → Run H K V n β} {s t : St H K V n}
    (first : Guarded b p s) (calm : s.mem.failAt = none) (le : b ≤ s.mem.next)
    (thrown : (p >>= q) (s.arm k) = .error .badAlloc t) :
    Kept b s t ∨ ∃ x u, Kept b s u ∧ q x (u.arm k) = .error .badAlloc t := by
  rcases run : p (s.arm k) with ⟨x, u'⟩ | ⟨fault, u'⟩
  · obtain ⟨u, rfl, -, kept⟩ := (first calm le k).1 x u' run
    rw [Exec.bind_of_ok run] at thrown
    exact .inr ⟨x, u, kept, thrown⟩
  · rw [Exec.bind_of_error run] at thrown
    cases thrown
    exact .inl ((first calm le k).2 _ run)

theorem guarded_pure {b : Addr} (x : α) (s : St H K V n) : Guarded b (pure x) s := by
  refine fun _ _ k => ⟨fun y t' run => ?_, fun t run => ?_⟩
  · cases run
    exact ⟨s, rfl, rfl, Kept.refl b s⟩
  · cases run

theorem guarded_throw {b : Addr} {fault : Fault} (other : fault ≠ .badAlloc) (s : St H K V n) :
    Guarded b (throw fault : Run H K V n α) s := by
  refine fun _ _ k => ⟨fun y t' run => ?_, fun t run => ?_⟩
  · cases run
  · cases run
    exact absurd rfl other

/-- A computation that neither allocates nor throws for want of memory. -/
theorem Guarded.of_blind {b : Addr} {p : Run H K V n α} {s : St H K V n} (blind : Blind p)
    (quiet : ∀ t, p s ≠ .error .badAlloc t) (writes : ∀ x t, p s = .ok x t → Kept b s t) :
    Guarded b p s := by
  intro calm le k
  rw [blind s k]
  rcases run : p s with ⟨x, t⟩ | ⟨fault, t⟩
  · refine ⟨fun y t' same => ?_, fun t' same => ?_⟩
    · cases same
      exact ⟨t, rfl, rfl, writes x t run⟩
    · cases same
  · refine ⟨fun y t' same => ?_, fun t' same => ?_⟩
    · cases same
    · cases same
      exact absurd run (quiet t)

theorem guarded_load {b : Addr} (a : Addr) (s : St H K V n) : Guarded b (load a) s := by
  refine Guarded.of_blind (blind_load a) (fun t run => ?_) fun x t run => ?_
  · unfold load at run
    split at run <;> cases run
  · unfold load at run
    split at run
    · cases run
      exact Kept.refl b s
    · cases run

theorem guarded_deref {b : Addr} (p : Option Addr) (s : St H K V n) : Guarded b (deref p) s := by
  cases p with
  | none => exact guarded_throw (by decide) s
  | some a => exact guarded_pure a s

theorem guarded_lift {b : Addr} {r : Except Fault α} (other : r ≠ .error .badAlloc) (s : St H K V n) :
    Guarded b (Exec.lift r) s := by
  cases r with
  | ok x => exact guarded_pure x s
  | error fault => exact guarded_throw (fun same => other (same ▸ rfl)) s

theorem guarded_store {b a : Addr} (beyond : b ≤ a) (cell : Cell H V) (s : St H K V n) :
    Guarded b (store a cell) s := by
  refine Guarded.of_blind (blind_store a cell) (fun t run => ?_) fun x t run => ?_
  · cases run
  · cases run
    refine ⟨rfl, Memory.keeps_set _ _ beyond, fun y live => ?_⟩
    obtain ⟨old, here⟩ := Option.ne_none_iff_exists'.mp live
    by_cases same : y = a
    · subst same
      rw [Memory.set_get_self here]
      exact Option.some_ne_none _
    · rw [Memory.set_get_of_ne _ _ same]
      exact live

theorem guarded_setParent {b a : Addr} (beyond : b ≤ a) (parent : Option Addr) (s : St H K V n) :
    Guarded b (setParent a parent) s := by
  refine (guarded_load a s).bind fun _ t _ _ => ?_
  exact guarded_store beyond _ t

theorem guarded_getType {b : Addr} (a : Addr) (s : St H K V n) : Guarded b (getType a) s :=
  (guarded_load a s).bind fun cell t _ _ => by
    rcases cell with ⟨p, body⟩
    cases body <;> exact guarded_pure _ t

/-- The allocation that is set to fail. -/
theorem new_thrown {s : St H K V n} (cell : Cell H V) (calm : s.mem.failAt = none) :
    new cell (s.arm s.mem.next) = .error .badAlloc s := by
  have armed : (s.arm s.mem.next).mem.failAt = some (s.arm s.mem.next).mem.next := rfl
  have restored : (s.arm s.mem.next).mem.disarm = s.mem := Memory.ext rfl rfl calm.symm
  unfold new
  rw [if_pos armed, restored]
  rfl

theorem guarded_new {b : Addr} (cell : Cell H V) (s : St H K V n) : Guarded b (new cell) s := by
  intro calm le k
  by_cases fails : s.mem.next = k
  · subst fails
    rw [new_thrown cell calm]
    refine ⟨fun x t' run => ?_, fun t run => ?_⟩
    · cases run
    · cases run
      exact Kept.refl b s
  · have granted : (s.arm k).mem.failAt ≠ some (s.arm k).mem.next := fun same =>
      fails (Option.some.inj same).symm
    rw [new_granted cell granted, new_ok cell calm]
    refine ⟨fun x t' run => ?_, fun t run => ?_⟩
    · cases run
      refine ⟨s.withMem (s.mem.alloc cell), rfl, rfl, rfl, Memory.keeps_alloc _ _ _, fun a live => ?_⟩
      obtain ⟨old, here⟩ := Option.ne_none_iff_exists'.mp live
      show (s.mem.alloc cell).get a ≠ none
      rw [Memory.alloc_get_of_get here]
      exact Option.some_ne_none _
    · cases run

/-- **A constructor**: when its body throws, the storage is freed. -/
theorem Guarded.construct {b : Addr} {cell : Cell H V} {body : Addr → Run H K V n α}
    {rest : Addr → α → Run H K V n β} {s : St H K V n}
    (inside : b ≤ s.mem.next → ∀ t, Guarded b (body s.mem.next) t)
    (after : b ≤ s.mem.next → ∀ x t, Guarded b (rest s.mem.next x) t) :
    Guarded b (do
      let node ← new cell
      let x ← onThrow (body node) (delete node)
      rest node x) s := by
  intro calm le k
  rcases allocated : new cell (s.arm k) with ⟨node, t'⟩ | ⟨fault, t'⟩
  · obtain ⟨t, rfl, first, kept⟩ := ((guarded_new cell s) calm le k).1 node t' allocated
    obtain ⟨same, cellAt⟩ : node = s.mem.next ∧ t.mem.get s.mem.next ≠ none := by
      cases first.symm.trans (new_ok cell calm)
      refine ⟨rfl, ?_⟩
      show (s.mem.alloc cell).get s.mem.next ≠ none
      rw [Memory.alloc_get_next]
      exact Option.some_ne_none _
    subst same
    have guarded := inside le t (kept.calm calm) (kept.le le) k
    rw [Exec.bind_of_ok allocated, Exec.bind_of_ok first]
    rcases run : body s.mem.next (t.arm k) with ⟨x, u'⟩ | ⟨fault, u'⟩
    · obtain ⟨u, rfl, run', kept'⟩ := guarded.1 x u' run
      rw [Exec.bind_of_ok (onThrow_ok run), Exec.bind_of_ok (onThrow_ok run')]
      have between := kept.trans kept'
      obtain ⟨returns, throws⟩ := after le x u (between.calm calm) (between.le le) k
      refine ⟨fun y v' more => ?_, fun v more => between.trans (throws v more)⟩
      obtain ⟨v, same, more', kept''⟩ := returns y v' more
      exact ⟨v, same, more', between.trans kept''⟩
    · by_cases memory : fault = .badAlloc
      · subst memory
        have kept' := guarded.2 u' run
        obtain ⟨old, here⟩ := Option.ne_none_iff_exists'.mp (kept'.live _ cellAt)
        have caught : onThrow (body s.mem.next) (delete s.mem.next) (t.arm k)
            = .error .badAlloc (u'.withMem (u'.mem.free s.mem.next)) := by
          unfold onThrow
          rw [run]
          exact Exec.bind_of_ok (delete_ok here) _
        rw [Exec.bind_of_error caught]
        refine ⟨fun y v' more => ?_, fun v more => ?_⟩
        · cases more
        · cases more
          have between := kept.trans kept'
          refine ⟨between.tree, between.keeps.trans (Memory.keeps_free _ le) fun _ x => .inl x, ?_⟩
          intro a live
          have differ : a ≠ s.mem.next := by
            rintro rfl
            exact live (Memory.get_next s.mem)
          show (u'.mem.free s.mem.next).get a ≠ none
          rw [Memory.free_get_of_ne _ differ]
          exact between.live a live
      · have passed : onThrow (body s.mem.next) (delete s.mem.next) (t.arm k) = .error fault u' := by
          unfold onThrow
          rw [run]
          cases fault <;> first | rfl | exact absurd rfl memory
        rw [Exec.bind_of_error passed]
        refine ⟨fun y v' more => ?_, fun v more => ?_⟩
        · cases more
        · cases more
          exact absurd rfl memory
  · rw [Exec.bind_of_error allocated]
    refine ⟨fun y v' more => ?_, fun v more => ?_⟩
    · cases more
    · cases more
      exact ((guarded_new cell s) calm le k).2 _ allocated

/-! ### What an operation allocates -/

theorem guarded_newDummy {b : Addr} (s : St H K V n) :
    Guarded b (newDummy : Run H K V n Addr) s :=
  Guarded.construct (fun _ t => guarded_new _ t) fun le _ t =>
    (guarded_store le _ t).bind fun _ u _ _ => guarded_pure _ u

theorem childSlot_ne {size : ℕ} (children : Vector (Option Addr) size) (i : ℕ) :
    childSlot children i ≠ .error .badAlloc := by
  unfold childSlot
  split <;> simp

theorem Node48.slot_ne (nd : Node48) (b : Byte) : nd.slot b ≠ .error .badAlloc := by
  unfold Node48.slot
  split <;> simp

/-- The pointers that are read out of arrays. -/
theorem Layout.copySteps_ne {l : Layout} {step : CopyStep} (member : step ∈ l.copySteps) :
    step.asked ≠ .error .badAlloc ∧ step.copied ≠ .error .badAlloc := by
  cases l with
  | node4 nd | node16 nd | node256 nd =>
      obtain ⟨i, -, rfl⟩ := List.mem_map.mp member
      exact ⟨childSlot_ne _ _, childSlot_ne _ _⟩
  | node48 nd =>
      obtain ⟨i, -, rfl⟩ := List.mem_map.mp member
      exact ⟨Node48.slot_ne nd i, childSlot_ne _ _⟩

/-- `children[slot] = child; children[slot]->_parent = this;` between new nodes. -/
theorem guarded_storeCopy {b node child : Addr} (slot : ℕ) (beyond : b ≤ node) (beyond' : b ≤ child)
    (s : St H K V n) : Guarded b (storeCopy node slot child) s := by
  refine (guarded_load node s).bind fun cell t _ _ => ?_
  rcases cell with ⟨p, body⟩
  cases body with
  | inner =>
      refine (guarded_store beyond _ t).bind fun _ u _ _ => ?_
      exact guarded_setParent beyond' _ u
  | baseLeaf | dummy | leaf =>
      refine (guarded_throw (by decide) t).bind fun _ u _ _ => ?_
      exact guarded_setParent beyond' _ u

/-- What is done for each element of a list. -/
theorem guarded_forM {b : Addr} {f : β → Run H K V n PUnit} : ∀ {l : List β} {s : St H K V n},
    (∀ x ∈ l, ∀ t : St H K V n, Guarded b (f x) t) → Guarded b (l.forM f) s
  | [], s, _ => guarded_pure _ s
  | x :: _, s, each => (each x List.mem_cons_self s).bind fun _ _ _ _ =>
      guarded_forM fun y member => each y (List.mem_cons_of_mem x member)

/-- A new node has the next address. -/
theorem eq_next_of_new {cell : Cell H V} {s t : St H K V n} {a : Addr} (run : new cell s = .ok a t) :
    a = s.mem.next := by
  unfold new at run
  split at run <;> cases run
  rfl

theorem eq_of_load {s t : St H K V n} {a : Addr} {cell : Cell H V} (run : load a s = .ok cell t) :
    t = s := by
  unfold load at run
  split at run <;> cases run
  rfl

section Copies

variable [Variant H]

/-- The copy of a node is a new node. -/
theorem le_of_copyAs {calls : ℕ} {type : NodeType} {x a : Addr} {s t : St H K V n}
    (run : copyAs calls type x s = .ok a t) : s.mem.next ≤ a := by
  cases calls with
  | zero => cases run
  | succ calls =>
      obtain ⟨cell, u, found, rest⟩ := Exec.bind_eq_ok.mp run
      cases eq_of_load found
      rcases cell with ⟨p, body⟩
      cases body with
      | leaf v =>
          dsimp only at rest
          split_ifs at rest with fits
          · exact (eq_next_of_new rest).ge
          · cases rest
      | inner h l =>
          dsimp only at rest
          split_ifs at rest with fits
          · obtain ⟨node, v, first, more⟩ := Exec.bind_eq_ok.mp rest
            obtain ⟨done, w, -, last⟩ := Exec.bind_eq_ok.mp more
            cases last
            exact (eq_next_of_new first).ge
          · cases rest
      | baseLeaf | dummy => cases rest

/-- **The copy constructors of the nodes.** -/
theorem guarded_copyAs {b : Addr} : ∀ (calls : ℕ) (type : NodeType) (x : Addr) (s : St H K V n),
    Guarded b (copyAs calls type x) s
  | 0, _, _, s => guarded_throw (by decide) s
  | calls + 1, type, x, s => by
      rw [copyAs]
      refine (guarded_load x s).bind fun cell t _ _ => ?_
      rcases cell with ⟨p, body⟩
      cases body with
      | leaf v =>
          dsimp only
          split_ifs
          · exact guarded_new _ t
          · exact guarded_throw (by decide) t
      | inner h l =>
          dsimp only
          split_ifs
          · refine Guarded.construct (fun beyond u => guarded_forM fun step member v => ?_)
              fun _ _ u => guarded_pure _ u
            obtain ⟨asked, copied⟩ := Layout.copySteps_ne member
            refine (guarded_lift asked v).bind fun c v _ _ => ?_
            refine (guarded_deref c v).bind fun y v _ _ => ?_
            refine (guarded_getType y v).bind fun childType v _ _ => ?_
            split_ifs
            · exact guarded_throw (by decide) v
            · refine (guarded_lift copied v).bind fun c v _ _ => ?_
              refine (guarded_deref c v).bind fun y v _ le => ?_
              refine (guarded_copyAs calls childType y v).bind fun child w run _ => ?_
              exact guarded_storeCopy _ beyond (le.trans (le_of_copyAs run)) w
          · exact guarded_throw (by decide) t
      | baseLeaf | dummy => exact guarded_throw (by decide) t

theorem guarded_copyNode {b : Addr} (x : Addr) (s : St H K V n) : Guarded b (copyNode x) s := by
  refine (guarded_getType x s).bind fun type t _ _ => ?_
  split_ifs
  · exact guarded_throw (by decide) t
  · exact guarded_copyAs _ type x t

end Copies

/-! ### Computations that cannot throw -/

/-- **A computation does not throw for want of memory.** -/
def Quiet (p : Run H K V n α) : Prop := ∀ s t : St H K V n, p s ≠ .error .badAlloc t

theorem Quiet.bind {p : Run H K V n α} {q : α → Run H K V n β} (first : Quiet p)
    (rest : ∀ x, Quiet (q x)) : Quiet (p >>= q) := by
  intro s t thrown
  rcases run : p s with ⟨x, u⟩ | ⟨fault, u⟩
  · rw [Exec.bind_of_ok run] at thrown
    exact rest x u t thrown
  · rw [Exec.bind_of_error run] at thrown
    cases thrown
    exact first s _ run

theorem quiet_pure (x : α) : Quiet (pure x : Run H K V n α) := fun _ _ thrown => by cases thrown

theorem quiet_modify (f : St H K V n → St H K V n) : Quiet (modify f : Run H K V n PUnit) :=
  fun _ _ thrown => by cases thrown

theorem quiet_load (a : Addr) : Quiet (load a : Run H K V n (Cell H V)) := by
  intro s t thrown
  unfold load at thrown
  split at thrown <;> cases thrown

theorem quiet_setParent (a : Addr) (parent : Option Addr) :
    Quiet (setParent a parent : Run H K V n Unit) := by
  refine (quiet_load a).bind fun _ => ?_
  exact quiet_modify _

theorem quiet_this : Quiet (this : Run H K V n (Tree K n)) := fun _ _ thrown => by cases thrown

theorem quiet_linkDummy : Quiet (linkDummy : Run H K V n Unit) := by
  refine quiet_this.bind fun tree => ?_
  refine (quiet_load _).bind fun cell => ?_
  rcases cell with ⟨p, body⟩
  cases body with
  | dummy => exact quiet_modify _
  | baseLeaf | inner | leaf => exact fun _ _ thrown => by cases thrown

theorem quiet_adoptRoot : Quiet (adoptRoot : Run H K V n Unit) := by
  refine quiet_this.bind fun tree => ?_
  cases tree.root with
  | none => exact quiet_pure _
  | some r => exact (quiet_setParent r _).bind fun _ => quiet_linkDummy

/-! ### `clear` -/

theorem blind_deref (p : Option Addr) : Blind (deref p : Run H K V n Addr) := by
  cases p with
  | none => exact blind_throw _
  | some a => exact blind_pure a

theorem blind_forM {f : β → Run H K V n PUnit} (each : ∀ x, Blind (f x)) : ∀ l : List β, Blind (l.forM f)
  | [] => blind_pure _
  | x :: l => (each x).bind fun _ => blind_forM each l

theorem blind_clearBelow : ∀ (calls : ℕ) (a : Addr), Blind (clearBelow calls a : Run H K V n Unit)
  | 0, _ => blind_throw _
  | calls + 1, a => by
      refine (blind_load a).bind fun cell => ?_
      rcases cell with ⟨p, body⟩
      cases body with
      | inner h l =>
          exact blind_forM (fun slot => (blind_lift slot).bind fun c => (blind_deref c).bind fun child =>
            (blind_clearBelow calls child).bind fun _ => blind_delete child) _
      | baseLeaf | dummy | leaf => exact blind_pure _

theorem blind_clear : Blind (clear : Run H K V n Unit) := by
  have forget : Blind (do setRoot none; updateCount fun _ => 0 : Run H K V n Unit) :=
    Blind.bind (fun _ _ => rfl) fun _ _ _ => rfl
  refine Blind.bind (fun _ _ => rfl) fun tree => ?_
  cases tree.root with
  | none => exact forget
  | some r => exact (blind_clearBelow _ r).bind fun _ => (blind_delete r).bind fun _ => forget

/-! ### Operations that throw -/

/-- **`init` that throws** has unset the members. -/
theorem init_thrown {s t : St H K V n} {k : Addr} (calm : s.mem.failAt = none)
    (thrown : init (s.arm k) = .error .badAlloc t) :
    Kept s.mem.next ⟨s.mem, { s.tree with count := 0, root := none }⟩ t := by
  let s₀ : St H K V n := ⟨s.mem, { s.tree with count := 0, root := none }⟩
  rcases (guarded_newDummy s₀).thrown_bind calm le_rfl thrown with kept | ⟨dummy, u, -, more⟩
  · exact kept
  · cases more

section Operations

variable [Variant H] {mem : Memory (Cell H V)} {source target : Tree K n} {k : Addr} {s' : St H K V n}

/-- **The copy constructor that throws** has written to new addresses only. -/
theorem copyConstruct_thrown (calm : mem.failAt = none)
    (thrown : copyConstruct source ⟨mem.arm k, target⟩ = .error .badAlloc s') :
    Memory.Keeps mem s'.mem (Set.Ici mem.next) := by
  let s : St H K V n := ⟨mem, target⟩
  unfold copyConstruct at thrown
  split_ifs at thrown with empty
  · exact (init_thrown (s := s) calm thrown).keeps
  · rcases root : source.root with _ | r <;> rw [root] at thrown
    · cases thrown
    · rcases (guarded_copyNode r s).thrown_bind calm le_rfl thrown with kept | ⟨a, u, kept, more⟩
      · exact kept.keeps
      · -- the members are set before the sentinel is allocated
        let u₁ : St H K V n := ⟨u.mem, { u.tree with root := some a, count := source.count }⟩
        rcases (guarded_newDummy u₁).thrown_bind (kept.calm calm) (kept.le le_rfl) more with
          kept' | ⟨dummy, v, -, last⟩
        · exact kept.keeps.trans kept'.keeps fun _ inside => .inl inside
        · refine absurd last (Quiet.bind (quiet_modify _) (fun _ => ?_) _ _)
          refine (quiet_setParent a _).bind fun _ => ?_
          refine quiet_linkDummy.bind fun _ => ?_
          exact quiet_modify _

omit [Variant H] in
/-- **The move constructor that throws** has written to new addresses only. -/
theorem moveConstruct_thrown (calm : mem.failAt = none)
    (thrown : moveConstruct source ⟨mem.arm k, target⟩ = .error .badAlloc s') :
    Memory.Keeps mem s'.mem (Set.Ici mem.next) := by
  let s : St H K V n := ⟨mem, ⟨source.keyTransform, source.count, target.dummyNode, source.root⟩⟩
  rcases (guarded_newDummy s).thrown_bind calm le_rfl thrown with kept | ⟨dummy, u, -, last⟩
  · exact kept.keeps
  · refine absurd last (Quiet.bind (quiet_modify _) (fun _ => ?_) _ _)
    refine quiet_adoptRoot.bind fun _ => ?_
    exact quiet_pure _

variable [HeaderSpec H] {tr : Traits K V n} {e₀ e' : Addr} {M M' : Contents n V} {own own' : Set Addr}

/-- **What throws after `clear`** has kept the members and everything that was allocated. -/
theorem Cleared.thrown {s : St H K V n} (cleared : Cleared tr mem target e' own own' s)
    (thrown : copyAssign source ⟨mem.arm k, target⟩ = .error .badAlloc s') : Kept s.mem.next s s' := by
  have clears : clear ((⟨mem, target⟩ : St H K V n).arm k) = .ok ⟨⟩ (s.arm k) :=
    (blind_clear ⟨mem, target⟩ k).trans (congrArg (armed k) cleared.run)
  have goes := (Exec.bind_of_ok clears _).symm.trans thrown
  have calm := cleared.holds.calm
  split_ifs at goes with empty
  · have kept := init_thrown calm goes
    have unset : (⟨s.mem, { s.tree with count := 0, root := none }⟩ : St H K V n) = s := by
      show (⟨s.mem, ⟨s.tree.keyTransform, 0, s.tree.dummyNode, none⟩⟩ : St H K V n) = s
      rw [← count_eq_zero_of_empty cleared.holds, ← root_eq_none cleared.holds]
    rwa [unset] at kept
  · rcases root : source.root with _ | r <;> rw [root] at goes
    · cases goes
    · rcases (guarded_copyNode r s).thrown_bind calm le_rfl goes with kept | ⟨a, u, -, last⟩
      · exact kept
      · refine absurd last (Quiet.bind (quiet_modify _) (fun _ => ?_) _ _)
        refine (quiet_modify _).bind fun _ => ?_
        refine quiet_this.bind fun _ => ?_
        refine (quiet_setParent a _).bind fun _ => ?_
        refine quiet_linkDummy.bind fun _ => ?_
        exact quiet_modify _

/-- **The copy assignment that throws** leaves its target empty. -/
theorem copyAssign_thrown (holds : Holds tr ⟨mem, source⟩ e₀ M own)
    (holds' : Holds tr ⟨mem, target⟩ e' M' own') (apart : Disjoint own own')
    (thrown : copyAssign source ⟨mem.arm k, target⟩ = .error .badAlloc s') :
    Holds tr s' e' Table.empty {s'.tree.dummyNode, e'} ∧ Memory.Keeps mem s'.mem own' ∧
      {s'.tree.dummyNode, e'} ⊆ own' := by
  obtain ⟨s, cleared⟩ := cleared_spec holds holds' apart
  have kept := cleared.thrown thrown
  have still : Memory.Same s.mem s'.mem {s.tree.dummyNode, e'} :=
    kept.keeps.same (Set.disjoint_left.mpr fun a beyond inside =>
      absurd (cleared.holds.lt_next inside) (not_lt.mpr beyond)) fun a => cleared.holds.lt_next
  have holds'' := cleared.holds.frame still kept.keeps.failAt
  have restored : s.withMem s'.mem = s' := by rw [St.withMem, ← kept.tree]
  rw [restored] at holds''
  rw [kept.tree]
  have fresh : Memory.Keeps s.mem s'.mem ∅ :=
    ⟨kept.keeps.next_le, kept.keeps.failAt, fun a _ lt => kept.keeps.get a (not_le.mpr lt) lt⟩
  exact ⟨holds'', cleared.keeps.trans fresh fun a none => absurd none (Set.notMem_empty a), cleared.owned⟩

omit [HeaderSpec H] in
/-- A copy of a node allocates before it returns. -/
theorem pending_copyNode (x : Addr) : Pending (copyNode x : Run H K V n Addr) := by
  refine (cautious_getType x).bind_pending fun type => ?_
  split_ifs
  · exact pending_throw _
  · refine (cautious_load x).bind_pending fun cell => ?_
    rcases cell with ⟨p, body⟩
    cases body with
    | leaf v =>
        dsimp only
        split_ifs
        · exact pending_new _
        · exact pending_throw _
    | inner h l =>
        dsimp only
        split_ifs
        · exact (pending_new _).bind _
        · exact pending_throw _
    | baseLeaf | dummy => exact pending_throw _

/-- **The copy assignment can throw**: its first allocation may be the one that fails. -/
theorem exists_thrown {fields : H → H} (faithful : Faithful fields)
    (holds : Holds tr ⟨mem, source⟩ e₀ M own) (holds' : Holds tr ⟨mem, target⟩ e' M' own')
    (apart : Disjoint own own') (full : source.count ≠ 0) (fit : Copyable fields ⟨mem, source⟩) :
    ∃ s', copyAssign source ⟨mem.arm mem.next, target⟩ = .error .badAlloc s' := by
  obtain ⟨t, e'', M'', own'', run, -⟩ := copyAssign_spec faithful holds holds' apart fit
  obtain ⟨s, clears, cleared, -, wipes⟩ := clear_spec holds'
  have armedClear : clear (⟨mem.arm mem.next, target⟩ : St H K V n) = .ok ⟨⟩ (s.arm s.mem.next) := by
    have next : s.mem.next = mem.next := wipes.next
    rw [next]
    exact (blind_clear ⟨mem, target⟩ mem.next).trans (congrArg (armed mem.next) clears)
  have returns := (Exec.bind_of_ok clears _).symm.trans run
  rw [if_neg full] at returns
  refine ⟨s, (Exec.bind_of_ok armedClear _).trans ?_⟩
  rw [if_neg full]
  rcases root : source.root with _ | r <;> rw [root] at returns
  · cases returns
  · refine (Exec.bind_of_ok rfl _).trans ?_
    rcases pending_copyNode r s cleared.calm with thrown | ⟨fault, stopped, -⟩
    · exact Exec.bind_of_error thrown _
    · cases returns.symm.trans (Exec.bind_of_error stopped _)

end Operations

/-! ### Runs in which operations may throw -/

namespace World

section Steps

variable [Variant H] [HeaderSpec H] {tr : Traits K V n} {w w' : World H K V n} {part : ℕ → Part n V}

/-- **What no container owns** may change. -/
theorem Sound.frame (sound : Sound tr False False w part) {mem : Memory (Cell H V)}
    (same : ∀ a, w.mem.get a ≠ none → mem.get a = w.mem.get a) (calm : mem.failAt = none) :
    Sound tr False False ⟨mem, w.trees⟩ part where
  calm := calm
  parted := by
    refine ⟨fun i x named => ?_, sound.parted.apart⟩
    have is := sound.parted.is i x named
    exact (secured tr False).frame is (fun a inside => same a ((secured tr False).alive is a inside))
      (calm.trans sound.calm.symm)
  all := False.elim
  finite := sound.finite

theorem Sound.leak (sound : Sound tr False False w part) {mem : Memory (Cell H V)}
    (keeps : Memory.Keeps w.mem mem (Set.Ici w.mem.next)) : Sound tr False False ⟨mem, w.trees⟩ part := by
  refine sound.frame (fun a live => ?_) (keeps.failAt.trans sound.calm)
  obtain ⟨cell, here⟩ := Option.ne_none_iff_exists'.mp live
  have lt := Memory.lt_next_of_get here
  exact keeps.get a (not_le.mpr lt) lt

variable [LawfulVariant H] [CautiousVariant H]

/-- An insertion that throws leaves every object as it was. -/
theorem call_thrown (admits : Admits H n) {s s' : St H K V n} {e : Addr} {M : Contents n V}
    {own : Set Addr} (holds : Holds tr s e M own) {call : Call K V} {k : ℕ} (spared : call.Spared k)
    (thrown : perform tr call (s.arm (s.mem.next + k)) = .error .badAlloc s') :
    s'.tree = s.tree ∧ (∀ a, s'.mem.get a = s.mem.get a) ∧ s'.mem.failAt = none := by
  cases spared with
  | insert x =>
      rcases insertUnique_thrown admits holds x with stopped | ⟨it, v, -, found⟩
      · cases thrown.symm.trans (Exec.bind_of_error stopped _)
        exact ⟨rfl, fun _ => rfl, holds.calm⟩
      · cases thrown.symm.trans (Exec.bind_of_ok found _)
  | emplace x =>
      rcases emplaceUnique_thrown admits holds x with ⟨t, stopped, same⟩ | ⟨answer, t, -, found⟩
      · cases thrown.symm.trans (Exec.bind_of_error stopped _)
        exact same
      · cases thrown.symm.trans (Exec.bind_of_ok found _)

/-- **What every operation that throws leaves behind.** -/
theorem Sound.throws (sound : Sound tr False False w part) (admits : Admits H n) {op : Op K V n}
    (throws : Throws tr w op w') :
    ∃ part', Sound tr False False w' part' ∧ mapsOf w' part' = op.aborted (mapsOf w part) := by
  cases throws with
  | construct free run => exact ⟨part, sound.leak (init_thrown (s := ⟨w.mem, _⟩) sound.calm run).keeps, rfl⟩
  | copyConstruct free source run => exact ⟨part, sound.leak (copyConstruct_thrown sound.calm run), rfl⟩
  | moveConstruct free source run => exact ⟨part, sound.leak (moveConstruct_thrown sound.calm run), rfl⟩
  | copyAssign other target source run =>
      obtain ⟨holds, keeps, within⟩ := copyAssign_thrown (sound.holds source) (sound.holds target)
        (sound.apart other target source).symm run
      refine ⟨_, sound.put holds False.elim (Sound.owned_eq target) keeps
        (fun b inside => .inl (within inside)) False.elim, ?_⟩
      rw [mapsOf_put, values_empty]
      rfl
  | @call i k t c s target spared run =>
      obtain ⟨tree, same, calm⟩ := call_thrown admits (sound.holds target) spared run
      have still : w.put i s = ⟨s.mem, w.trees⟩ := by
        rw [World.put, tree, ← target, Function.update_eq_self]
      rw [still]
      exact ⟨part, sound.frame (fun a _ => same a) calm, rfl⟩

variable {maps : Family n V} {fields : H → H} {fit : St H K V n → Prop}

/-- **The invariant along a run** in which operations may throw. -/
theorem Tried.sound (admits : Admits H n) (faithful : Faithful fields)
    (copyable : ∀ s, fit s → Copyable fields s) (tried : Tried tr (Allowed fit) w maps) :
    ∃ part, Sound tr False False w part ∧ maps = mapsOf w part := by
  induction tried with
  | blank => exact ⟨_, Sound.blank, rfl⟩
  | step before fine denotes step ih =>
      obtain ⟨part, sound, rfl⟩ := ih
      obtain ⟨part', moved⟩ := sound.moved admits faithful copyable fine.1 fine.2 step
      exact ⟨part', moved.sound, denotes_unique denotes moved.denotes⟩
  | thrown before throws ih =>
      obtain ⟨part, sound, rfl⟩ := ih
      obtain ⟨part', sound', maps⟩ := sound.throws admits throws
      exact ⟨part', sound', maps.symm⟩

theorem Tried.standsFor (admits : Admits H n) (faithful : Faithful fields)
    (copyable : ∀ s, fit s → Copyable fields s) (tried : Tried tr (Allowed fit) w maps) :
    StandsFor tr fit w maps := by
  obtain ⟨part, sound, rfl⟩ := tried.sound admits faithful copyable
  exact sound.standsFor admits faithful copyable

omit [HeaderSpec H] [LawfulVariant H] [CautiousVariant H] in
/-- A run in which nothing throws. -/
theorem Traced.tried (traced : Traced tr (Allowed fit) w maps) : Tried tr (Allowed fit) w maps := by
  induction traced with
  | blank => exact .blank
  | step before fine denotes step ih => exact ih.step fine denotes step

/-- At the end of the tour a copy assignment throws, and a value is inserted into its target. -/
theorem exists_aborted (tr : Traits K V n) (admits : Admits H n) (faithful : Faithful fields)
    (copyable : ∀ s, fit s → Copyable fields s)
    (small : ∀ s : St H K V n, (∀ a h l, IsInner s a h l → l.getType ≠ .node48) → fit s) (x y z : V) :
    ∃ (w w₁ w₂ : World H K V n) (maps : Family n V), Executes tr (tour x y) w ∧
      Throws tr w (.copyAssign 2 1) w₁ ∧ Step tr w₁ (.call 2 (.insert z)) w₂ ∧
      Tried tr (Allowed fit) w₂ maps ∧ maps 1 = some (Table.ofList tr [x, y]) ∧
      maps 2 = some (Table.ofList tr [z]) := by
  have differ : (2 : ℕ) ≠ 1 := by decide
  obtain ⟨-, w, maps, -, -, -, -, -, -, executed, careful, -, map₁, map₂, -⟩ :=
    exists_tour tr admits faithful copyable small x y
  have traced : Traced tr (Allowed fit) w maps := careful.mono fun _ _ fine => fine.1
  have stands := traced.standsFor admits faithful copyable
  obtain ⟨t, target⟩ := stands.present map₂
  obtain ⟨u, source⟩ := stands.present map₁
  have full : u.count ≠ 0 := by
    have refines := stands.refines 1 u _ source map₁
    have member : tr.keyOf x ∈ dom (Table.ofList tr [x, y]) := by
      rw [dom_ofList]
      exact ⟨x, List.mem_cons_self, rfl⟩
    rw [refines.size]
    exact (size_pos_of_mem member).ne'
  have fits : fit ⟨w.mem, u⟩ :=
    small _ fun a h l => traced.not_node48 admits faithful copyable map₁ (by simp) source
  obtain ⟨part, sound, -⟩ := traced.sound admits faithful copyable
  obtain ⟨s, run⟩ := exists_thrown faithful (sound.holds source) (sound.holds target)
    (sound.apart differ target source).symm full (copyable _ fits)
  have throws : Throws tr w (.copyAssign 2 1) (w.put 2 s) := .copyAssign differ target source run
  have tried : Tried tr (Allowed fit) (w.put 2 s) (Function.update maps 2 (some Table.empty)) :=
    traced.tried.thrown throws
  obtain ⟨w₂, step, denotes⟩ :=
    (tried.standsFor admits faithful copyable).exists_insert (Function.update_self _ _ _) z
  have fine : Allowed fit (w.put 2 s) (.call 2 (.insert z)) := ⟨trivial, trivial⟩
  refine ⟨w, w.put 2 s, w₂, _, executed, throws, step, tried.step fine denotes step, ?_, rfl⟩
  rw [Function.update_of_ne differ.symm, Function.update_of_ne differ.symm, map₁]

end Steps

end World

/-! ### The two classes -/

/-- **Containers survive operations that throw**: wherever an allocation fails in a constructor or in an
assignment, or before any restructuring in an insertion, the containers stand for their maps, and the
target of an assignment for the empty map. -/
theorem family_survives {K V : Type} {n : ℕ} (tr : Traits K V n) :
    (∀ (w : World DepthHeader K V n) (maps : Family n V),
      World.Tried tr (World.Allowed ArTree.FitToCopy) w maps → w.StandsFor tr ArTree.FitToCopy maps) ∧
    ∀ (w : World PrefixHeader K V n) (maps : Family n V), n ≤ 65536 →
      World.Tried tr (World.Allowed ArPrefixTree.FitToCopy) w maps →
      w.StandsFor tr ArPrefixTree.FitToCopy maps :=
  ⟨fun _ _ tried => tried.standsFor trivial ArTree.faithful fun _ => ArTree.copyable_iff.mpr,
    fun _ _ fits tried => tried.standsFor fits ArPrefixTree.faithful
      fun _ => ArPrefixTree.copyable_iff.mpr⟩

/-- A copy assignment to a container with two elements has thrown, in either class, and an element has been
inserted since. -/
theorem family_survives_copy :
    (∃ (w w₁ w₂ : World DepthHeader (Key 1) (Key 1) 1) (maps : Family 1 (Key 1)),
      World.Executes (Traits.identity 1) (World.tour ⟨#v[7]⟩ ⟨#v[9]⟩) w ∧
        World.Throws (Traits.identity 1) w (.copyAssign 2 1) w₁ ∧
        World.Step (Traits.identity 1) w₁ (.call 2 (.insert ⟨#v[5]⟩)) w₂ ∧
        maps 1 = some (Table.ofList (Traits.identity 1) [⟨#v[7]⟩, ⟨#v[9]⟩]) ∧
        maps 2 = some (Table.ofList (Traits.identity 1) [⟨#v[5]⟩]) ∧
        w₂.StandsFor (Traits.identity 1) ArTree.FitToCopy maps) ∧
    ∃ (w w₁ w₂ : World PrefixHeader (Key 1) (Key 1) 1) (maps : Family 1 (Key 1)),
      World.Executes (Traits.identity 1) (World.tour ⟨#v[7]⟩ ⟨#v[9]⟩) w ∧
        World.Throws (Traits.identity 1) w (.copyAssign 2 1) w₁ ∧
        World.Step (Traits.identity 1) w₁ (.call 2 (.insert ⟨#v[5]⟩)) w₂ ∧
        maps 1 = some (Table.ofList (Traits.identity 1) [⟨#v[7]⟩, ⟨#v[9]⟩]) ∧
        maps 2 = some (Table.ofList (Traits.identity 1) [⟨#v[5]⟩]) ∧
        w₂.StandsFor (Traits.identity 1) ArPrefixTree.FitToCopy maps := by
  have fits : 1 ≤ 65536 := by decide
  obtain ⟨w, w₁, w₂, maps, executed, throws, step, tried, map₁, map₂⟩ :=
    World.exists_aborted (H := DepthHeader) (Traits.identity 1) trivial ArTree.faithful
      (fun _ => ArTree.copyable_iff.mpr) (fun _ => ArTree.fit_of_ne) ⟨#v[7]⟩ ⟨#v[9]⟩ ⟨#v[5]⟩
  obtain ⟨w', w₁', w₂', maps', executed', throws', step', tried', map₁', map₂'⟩ :=
    World.exists_aborted (H := PrefixHeader) (Traits.identity 1) fits ArPrefixTree.faithful
      (fun _ => ArPrefixTree.copyable_iff.mpr) (fun _ => ArPrefixTree.fit_of_ne) ⟨#v[7]⟩ ⟨#v[9]⟩ ⟨#v[5]⟩
  exact ⟨⟨w, w₁, w₂, maps, executed, throws, step, map₁, map₂, (family_survives _).1 w₂ maps tried⟩,
    w', w₁', w₂', maps', executed', throws', step', map₁', map₂',
    (family_survives _).2 w₂' maps' fits tried'⟩

end CppArt
