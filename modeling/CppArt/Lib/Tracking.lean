/-
**A computation that runs alongside another one.**

`Tracks rank span φ f p q`: `q` does in the image of a state what `p` does in the state itself, up to the
map `φ` of states and the map `f` of results, whether it returns or stops. A rank that never decreases
tells how far the computation has come, and the promise is made for the runs whose rank stays in a span.
The relation is closed under everything programs are made of, so it is proved of a program by following
its text.

`Shift` is the map of addresses that opens a gap, and `Memory.spread` the memory with foreign cells in the
gap. Reading, writing and freeing commute with it, and so does allocation, unless the gap is crossed.
-/

import CppArt.Lib.Exec
import CppArt.Lib.Memory

namespace CppArt

namespace Exec

variable {ε σ τ α β γ δ ι κ : Type}

/-- The state a computation ends in, whether it has returned or stopped. -/
def final : EStateM.Result ε σ α → σ
  | .ok _ s => s
  | .error _ s => s

/-- The result of a computation under maps of states and of values. -/
def mapResult (φ : σ → τ) (f : α → β) : EStateM.Result ε σ α → EStateM.Result ε τ β
  | .ok a s => .ok (f a) (φ s)
  | .error e s => .error e (φ s)

theorem final_mapResult (φ : σ → τ) (f : α → β) (r : EStateM.Result ε σ α) :
    final (mapResult φ f r) = φ (final r) := by
  cases r <;> rfl

/-- **The computation `q` does in the image of a state what `p` does in the state**, as long as the rank of
the state, which never decreases, stays in a span. -/
structure Tracks (rank : σ → ℕ) (span : Set ℕ) (φ : σ → τ) (f : α → β) (p : EStateM ε σ α)
    (q : EStateM ε τ β) : Prop where
  grows : ∀ s, rank s ≤ rank (final (p s))
  same : ∀ s, rank s ∈ span → rank (final (p s)) ∈ span → q (φ s) = mapResult φ f (p s)

namespace Tracks

variable {rank : σ → ℕ} {span : Set ℕ} {φ : σ → τ} {f : α → β} {g : γ → δ}

theorem pure (f : α → β) (a : α) :
    Tracks rank span φ f (Pure.pure a : EStateM ε σ α) (Pure.pure (f a) : EStateM ε τ β) :=
  ⟨fun _ => le_rfl, fun _ _ _ => rfl⟩

theorem throw (e : ε) :
    Tracks rank span φ f (MonadExcept.throw e : EStateM ε σ α) (MonadExcept.throw e : EStateM ε τ β) :=
  ⟨fun _ => le_rfl, fun _ _ _ => rfl⟩

theorem bind [span.OrdConnected] {p : EStateM ε σ α} {q : EStateM ε τ β} {p' : α → EStateM ε σ γ}
    {q' : β → EStateM ε τ δ} (first : Tracks rank span φ f p q)
    (rest : ∀ a, Tracks rank span φ g (p' a) (q' (f a))) :
    Tracks rank span φ g (p >>= p') (q >>= q') := by
  constructor
  · intro s
    have grows := first.grows s
    rcases run : p s with ⟨a, t⟩ | ⟨e, t⟩ <;> rw [run] at grows
    · rw [bind_of_ok run]
      exact grows.trans ((rest a).grows t)
    · rw [bind_of_error run]
      exact grows
  · intro s inside inside'
    have grows := first.grows s
    have same := first.same s inside
    rcases run : p s with ⟨a, t⟩ | ⟨e, t⟩ <;> rw [run] at grows same
    · rw [bind_of_ok run] at inside' ⊢
      have between : rank t ∈ span :=
        Set.OrdConnected.out ‹_› inside inside' ⟨grows, (rest a).grows t⟩
      rw [bind_of_ok (same between)]
      exact (rest a).same t between inside'
    · rw [bind_of_error run] at inside' ⊢
      exact bind_of_error (same inside') _

/-- A pure step that may fail. -/
theorem lift (f : α → β) (r : Except ε α) :
    Tracks rank span φ f (Exec.lift r : EStateM ε σ α) (Exec.lift (r.map f) : EStateM ε τ β) := by
  cases r with
  | ok a => exact pure f a
  | error e => exact throw e

/-- A pure step whose result does not depend on the state. -/
theorem lift_same (r : Except ε α) :
    Tracks rank span φ id (Exec.lift r : EStateM ε σ α) (Exec.lift r : EStateM ε τ α) := by
  cases r with
  | ok a => exact pure id a
  | error e => exact throw e

theorem write {step : σ → σ} {step' : τ → τ} (grows : ∀ s, rank s ≤ rank (step s))
    (same : ∀ s, rank s ∈ span → step' (φ s) = φ (step s)) :
    Tracks rank span φ id (modify step : EStateM ε σ PUnit) (modify step' : EStateM ε τ PUnit) :=
  ⟨grows, fun s inside _ => congrArg (EStateM.Result.ok PUnit.unit) (same s inside)⟩

/-- What is done for each element of a list. -/
theorem forM [span.OrdConnected] {p : ι → EStateM ε σ PUnit} {q : κ → EStateM ε τ PUnit} {h : ι → κ}
    (each : ∀ x, Tracks rank span φ id (p x) (q (h x))) :
    ∀ l : List ι, Tracks rank span φ id (l.forM p) ((l.map h).forM q)
  | [] => pure id _
  | x :: l => (each x).bind fun _ => forM each l

/-- What is computed for each element of a list. -/
theorem mapM [span.OrdConnected] {p : ι → EStateM ε σ α} {q : κ → EStateM ε τ β} {h : ι → κ}
    (each : ∀ x, Tracks rank span φ f (p x) (q (h x))) (l : List ι) :
    Tracks rank span φ (List.map f) (l.mapM p) ((l.map h).mapM q) := by
  induction l with
  | nil =>
      simp only [List.map_nil, List.mapM_nil]
      exact pure _ []
  | cons x l rest =>
      simp only [List.map_cons, List.mapM_cons]
      exact (each x).bind fun a => rest.bind fun as => pure _ (a :: as)

end Tracks

end Exec

/-! ### More than another computation -/

namespace Exec

variable {ε σ α β : Type}

/-- **The computation `q` returns whatever `p` returns.** -/
def Extends (p q : EStateM ε σ α) : Prop := ∀ s a t, p s = .ok a t → q s = .ok a t

namespace Extends

theorem refl (p : EStateM ε σ α) : Extends p p := fun _ _ _ run => run

theorem throw (e : ε) (q : EStateM ε σ α) : Extends (MonadExcept.throw e) q := by
  intro s a t run
  cases run

theorem bind {p q : EStateM ε σ α} {p' q' : α → EStateM ε σ β} (first : Extends p q)
    (rest : ∀ a, Extends (p' a) (q' a)) : Extends (p >>= p') (q >>= q') := by
  intro s b t run
  obtain ⟨a, u, before, after⟩ := bind_eq_ok.mp run
  exact (bind_of_ok (first s a u before) _).trans (rest a u b t after)

end Extends

end Exec

/-! ### Addresses with a gap -/

/-- A gap of some width opened before an address, which has been allocated or is still to come. -/
structure Shift where
  start : ℕ
  width : ℕ
  past : Bool

namespace Shift

variable (ρ : Shift)

/-- An address, moved out of the gap. -/
def move (a : ℕ) : ℕ := if a < ρ.start then a else a + ρ.width

/-- The address that is allocated next. -/
def next (k : ℕ) : ℕ := if ρ.past then k + ρ.width else k

/-- The addresses that may be next while the gap stays in the past, or in the future. -/
def span : Set ℕ := if ρ.past then Set.Ici ρ.start else Set.Iic ρ.start

instance : ρ.span.OrdConnected := by
  unfold span
  split_ifs <;> infer_instance

variable {ρ} {a b k : ℕ}

theorem move_of_lt (lt : a < ρ.start) : ρ.move a = a := if_pos lt

theorem move_of_le (le : ρ.start ≤ a) : ρ.move a = a + ρ.width := if_neg (not_lt.mpr le)

theorem injective : Function.Injective ρ.move := by
  intro (a : ℕ) (b : ℕ) same
  unfold Shift.move at same
  split_ifs at same <;> omega

theorem move_inj : ρ.move a = ρ.move b ↔ a = b := injective.eq_iff

theorem next_injective : Function.Injective ρ.next := by
  intro (a : ℕ) (b : ℕ) same
  unfold Shift.next at same
  split_ifs at same <;> omega

theorem next_succ : ρ.next (k + 1) = ρ.next k + 1 := by
  unfold Shift.next
  split_ifs <;> omega

/-- An address that has been allocated is moved to one. -/
theorem move_lt_next (inside : k ∈ ρ.span) : ρ.move a < ρ.next k ↔ a < k := by
  unfold Shift.span at inside
  unfold Shift.move Shift.next
  split_ifs at inside ⊢ <;> simp only [Set.mem_Ici, Set.mem_Iic] at inside <;> omega

theorem move_next (inside : k ∈ ρ.span) (inside' : k + 1 ∈ ρ.span) : ρ.move k = ρ.next k := by
  unfold Shift.span at inside inside'
  unfold Shift.move Shift.next
  split_ifs at inside inside' ⊢ <;> simp only [Set.mem_Ici, Set.mem_Iic] at inside inside' <;> omega

/-- Every address is in the gap or has been moved out of it. -/
theorem exists_move (outside : a < ρ.start ∨ ρ.start + ρ.width ≤ a) : ∃ b, ρ.move b = a := by
  rcases outside with low | high
  · exact ⟨a, move_of_lt low⟩
  · refine ⟨a - ρ.width, ?_⟩
    rw [move_of_le (by omega)]
    omega

/-- No address is moved into the gap. -/
theorem ne_move (low : ρ.start ≤ a) (gap : a < ρ.start + ρ.width) : a ≠ ρ.move b := by
  unfold Shift.move
  split_ifs <;> omega

end Shift

/-- **The rotation of the addresses from the first to the last**: each is moved by one, the last to the
first. -/
def rotation {first last : ℕ} (le : first ≤ last) : Equiv.Perm ℕ where
  toFun a := if a < first then a else if a < last then a + 1 else if a = last then first else a
  invFun a := if a < first then a else if a = first then last else if a ≤ last then a - 1 else a
  left_inv a := by
    dsimp only
    split_ifs <;> omega
  right_inv a := by
    dsimp only
    split_ifs <;> omega

section Rotation

variable {first last a : ℕ} (le : first ≤ last)

theorem rotation_old (lt : a < first) : rotation le a = a := if_pos lt

theorem rotation_last : rotation le last = first := by
  show (if last < first then _ else if last < last then _ else if last = last then _ else _) = _
  rw [if_neg (not_lt.mpr le), if_neg (lt_irrefl _), if_pos rfl]

theorem rotation_of_lt (lt : a < last) : rotation le a = (⟨first, 1, true⟩ : Shift).move a := by
  show (if a < first then _ else if a < last then _ else _) = _
  rw [if_pos lt]
  rfl

theorem rotation_beyond (lt : last < a) : rotation le a = a := by
  show (if a < first then _ else if a < last then _ else if a = last then _ else _) = _
  rw [if_neg (by omega), if_neg (by omega), if_neg (by omega)]

end Rotation

namespace Memory

variable {C D : Type}

/-- A new cell is overwritten. -/
theorem alloc_set_next (m : Memory C) (c c' : C) : (m.alloc c).set m.next c' = m.alloc c' := by
  refine Memory.ext (funext fun a => ?_) rfl rfl
  by_cases same : a = m.next
  · rw [same, set_get_self (alloc_get_next m c), alloc_get_next]
  · rw [set_get_of_ne _ _ same, alloc_get_of_ne _ _ same, alloc_get_of_ne _ _ same]

/-- **The memory with foreign cells in the gap**, and the other cells under a map. -/
def spread (ρ : Shift) (foreign : Addr → Option D) (g : C → D) (m : Memory C) : Memory D where
  get (a : ℕ) :=
    if a < ρ.next m.next then
      if a < ρ.start then (m.get a).map g
      else if a < ρ.start + ρ.width then foreign a
      else (m.get (a - ρ.width)).map g
    else none
  next := ρ.next m.next
  bounded _ le := if_neg (not_lt.mpr le)
  failAt := m.failAt.map ρ.next

variable {ρ : Shift} {foreign : Addr → Option D} {g : C → D} {m : Memory C} {a : ℕ}

theorem spread_get (inside : m.next ∈ ρ.span) (a : ℕ) :
    (m.spread ρ foreign g).get (ρ.move a) = (m.get a).map g := by
  show (if ρ.move a < ρ.next m.next then _ else _) = _
  rw [if_congr (Shift.move_lt_next inside) rfl rfl]
  by_cases lt : a < m.next
  · rw [if_pos lt]
    by_cases low : a < ρ.start
    · rw [Shift.move_of_lt low, if_pos low]
    · rw [Shift.move_of_le (not_lt.mp low), if_neg (by omega), if_neg (by omega), Nat.add_sub_cancel]
  · rw [if_neg lt, m.bounded a (not_lt.mp lt), Option.map_none]

theorem spread_get_gap (inside : m.next ∈ ρ.span) (low : ρ.start ≤ a) (gap : a < ρ.start + ρ.width) :
    (m.spread ρ foreign g).get a = if ρ.past then foreign a else none := by
  show (if a < ρ.next m.next then (if a < ρ.start then _ else _) else _) = _
  rw [if_neg (not_lt.mpr low), if_pos gap]
  unfold Shift.span at inside
  unfold Shift.next
  by_cases past : ρ.past
  · rw [if_pos past] at inside ⊢
    rw [if_pos past, if_pos (lt_of_lt_of_le gap (Nat.add_le_add_right inside _))]
  · rw [if_neg past] at inside ⊢
    rw [if_neg past, if_neg (not_lt.mpr (le_trans inside low))]

/-- Two memories are equal when they agree outside of the gap and in it. -/
theorem ext_spread {m' : Memory D} (inside : m.next ∈ ρ.span)
    (moved : ∀ b, m'.get (ρ.move b) = (m.get b).map g)
    (gap : ∀ a, ρ.start ≤ a → a < ρ.start + ρ.width → m'.get a = if ρ.past then foreign a else none)
    (next : m'.next = ρ.next m.next) (failAt : m'.failAt = m.failAt.map ρ.next) :
    m' = m.spread ρ foreign g := by
  refine Memory.ext (funext fun a : ℕ => ?_) next failAt
  by_cases here : ρ.start ≤ a ∧ a < ρ.start + ρ.width
  · rw [gap a here.1 here.2, spread_get_gap inside here.1 here.2]
  · obtain ⟨b, rfl⟩ : ∃ b, ρ.move b = a := Shift.exists_move (by omega)
    rw [moved, spread_get inside]

theorem spread_set (inside : m.next ∈ ρ.span) (a : ℕ) (c : C) :
    (m.spread ρ foreign g).set (ρ.move a) (g c) = (m.set a c).spread ρ foreign g := by
  refine ext_spread (m := m.set a c) inside (fun b => ?_) (fun b low gap => ?_) rfl rfl
  · by_cases same : b = a
    · subst same
      show (if ρ.move b = ρ.move b then _ else _) = _
      rw [if_pos rfl, spread_get inside]
      show _ = ((if b = b then _ else _) : Option C).map g
      rw [if_pos rfl, Option.map_map, Option.map_map]
      rfl
    · rw [set_get_of_ne _ _ (Shift.move_inj.not.mpr same), spread_get inside, set_get_of_ne _ _ same]
  · rw [set_get_of_ne _ _ (Shift.ne_move low gap), spread_get_gap inside low gap]

theorem spread_free (inside : m.next ∈ ρ.span) (a : ℕ) :
    (m.spread ρ foreign g).free (ρ.move a) = (m.free a).spread ρ foreign g := by
  refine ext_spread (m := m.free a) inside (fun b => ?_) (fun b low gap => ?_) rfl rfl
  · by_cases same : b = a
    · rw [same, free_get_self, free_get_self, Option.map_none]
    · rw [free_get_of_ne _ (Shift.move_inj.not.mpr same), spread_get inside, free_get_of_ne _ same]
  · rw [free_get_of_ne _ (Shift.ne_move low gap), spread_get_gap inside low gap]

theorem spread_alloc (inside : m.next ∈ ρ.span) (inside' : m.next + 1 ∈ ρ.span) (c : C) :
    (m.spread ρ foreign g).alloc (g c) = (m.alloc c).spread ρ foreign g := by
  have here : ρ.move m.next = (m.spread ρ foreign g).next := Shift.move_next inside inside'
  refine ext_spread (m := m.alloc c) inside' (fun b => ?_) (fun b low gap => ?_) Shift.next_succ.symm rfl
  · by_cases same : b = m.next
    · rw [same, here, alloc_get_next, alloc_get_next, Option.map_some]
    · have other : ρ.move b ≠ (m.spread ρ foreign g).next := by
        rw [← here]
        exact Shift.move_inj.not.mpr same
      rw [alloc_get_of_ne _ _ other, alloc_get_of_ne _ _ same, spread_get inside]
  · have other : b ≠ (m.spread ρ foreign g).next := by
      rw [← here]
      exact Shift.ne_move low gap
    rw [alloc_get_of_ne _ _ other, spread_get_gap inside low gap]

/-- The allocation that fails is the same one. -/
theorem spread_failAt :
    (m.spread ρ foreign g).failAt = some (m.spread ρ foreign g).next ↔ m.failAt = some m.next :=
  (Option.map_injective Shift.next_injective).eq_iff (a := m.failAt) (b := some m.next)

end Memory

end CppArt
