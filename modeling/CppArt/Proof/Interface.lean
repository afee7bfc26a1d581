/-
**A `radix_map` refines a finite map that is also written through references.**

A mapped value is overwritten in the leaf of its element; the key stays, so the tree over the leaves is
as it was.

* `Rep.revalue`, `Holds.revalue`: a leaf gets another value with the same key;
* `setMapped_spec`, `subscript_spec`, `mapAt_spec`, `countOf_spec`, `insertEach_spec`: what the members do;
* `performMap_spec`: every legal call of a user;
* `radix_map_refines`: for maps over either tree.
-/

import CppArt.Model.Interface
import CppArt.Proof.Iteration

namespace CppArt

open Table

variable {H K T V : Type} {n : ℕ}

/-! ### Another value in a leaf -/

section Revalue

variable [Header H] [HeaderSpec H] {tr : Traits K V n} {mem : Memory (Cell H V)} {it : Addr} {v v' : V}
  {q : Option Addr}

theorem fiber_put_of_eq {m : Contents n V} {w : Key n} {r : ℕ} {b : Byte} {x : Addr × V}
    (letter : w.letter r = b) : fiber (put m w x) r b = put (fiber m r b) w x := by
  funext u
  by_cases same : u = w
  · rw [same, put_self, fiber_of_letter letter, put_self]
  · rw [put_of_ne _ x same]
    by_cases here : u.letter r = b
    · rw [fiber_of_letter here, fiber_of_letter here, put_of_ne _ x same]
    · rw [fiber, fiber, if_neg here, if_neg here]

theorem dom_put_of_mem {m : Contents n V} {w : Key n} {x : Addr × V} (present : w ∈ dom m) :
    dom (put m w x) = dom m := by
  rw [dom_put, Set.insert_eq_of_mem present]

/-- **A leaf below a node gets another value** with the same key. -/
theorem Rep.revalue {p a : Addr} {d : ℕ} {m : Contents n V} {own : Set Addr}
    (rep : Rep tr mem p a d m own) (leaf : mem.get it = some ⟨q, .leaf v⟩)
    (entry : m (tr.keyOf v) = some (it, v)) (key : tr.keyOf v' = tr.keyOf v) :
    Rep tr (mem.set it ⟨q, .leaf v'⟩) p a d (put m (tr.keyOf v) (it, v')) own := by
  induction rep with
  | @leaf p a d v₀ cell le =>
      rw [single_apply] at entry
      split_ifs at entry with same
      obtain ⟨rfl, rfl⟩ := Prod.mk.inj (Option.some.inj entry)
      obtain ⟨rfl, -⟩ := Cell.mk.inj (Option.some.inj (cell.symm.trans leaf))
      have replaced : put (single (tr.keyOf v₀) (a, v₀)) (tr.keyOf v₀) (a, v')
          = single (tr.keyOf v') (a, v') := by
        funext u
        rw [key, put, single_apply, single_apply]
        split_ifs <;> rfl
      rw [replaced]
      exact .leaf (Memory.set_get_self cell _) le
  | @inner p a d m h l sub cell wf fits bound shared describes broad bare kid apart disjoint ih =>
      have present : tr.keyOf v ∈ dom m := mem_dom_of_eq_some entry
      have here : fiber m (branch h) ((tr.keyOf v).letter (branch h)) (tr.keyOf v) = some (it, v) := by
        rw [fiber_of_letter rfl, entry]
      obtain ⟨c, child⟩ : ∃ c, l.child ((tr.keyOf v).letter (branch h)) = some c := by
        rw [← Option.ne_none_iff_exists']
        intro none
        rw [(bare _ none).1] at here
        cases here
      have inside : it ∈ sub ((tr.keyOf v).letter (branch h)) := ((kid _ c child).leaf_cell here).2.1
      have other : a ≠ it := by
        rintro rfl
        exact apart _ inside
      rw [← dom_put_of_mem (x := (it, v')) present] at shared describes broad
      refine .inner ((Memory.set_get_of_ne _ _ other).trans cell) wf fits bound shared describes broad
        (fun b none => ?_) (fun b c' child' => ?_) apart disjoint
      · rw [fiber_put_of_ne]
        · exact bare b none
        · rintro rfl
          rw [child] at none
          cases none
      · by_cases mine : (tr.keyOf v).letter (branch h) = b
        · subst mine
          rw [fiber_put_of_eq rfl]
          exact ih _ c' child' here
        · rw [fiber_put_of_ne mine]
          refine (kid b c' child').frame fun y theirs => Memory.set_get_of_ne _ _ ?_
          rintro rfl
          exact Set.disjoint_left.mp (disjoint _ b mine) inside theirs

variable {s : St H K V n} {e : Addr} {M : Contents n V} {own : Set Addr}

/-- **An element gets another value** with the same key. -/
theorem Holds.revalue (holds : Holds tr s e M own) (entry : M (tr.keyOf v) = some (it, v))
    (leaf : s.mem.get it = some ⟨q, .leaf v⟩) (key : tr.keyOf v' = tr.keyOf v) :
    Holds tr (s.withMem (s.mem.set it ⟨q, .leaf v'⟩)) e (put M (tr.keyOf v) (it, v')) own where
  whole := by
    have whole := holds.whole
    show Whole tr (s.mem.set it ⟨q, .leaf v'⟩) s.tree.dummyNode e s.tree.root _ own
    generalize s.tree.root = root at whole
    cases whole with
    | empty sentinel endLeaf => cases entry
    | tree sentinel endLeaf rep clear =>
        have inside := (rep.leaf_cell entry).2.1
        have other : ∀ y ∈ ({s.tree.dummyNode, e} : Set Addr), y ≠ it := by
          rintro y member rfl
          exact Set.disjoint_left.mp clear member inside
        exact .tree ((Memory.set_get_of_ne _ _ (other _ (Or.inl rfl))).trans sentinel)
          ((Memory.set_get_of_ne _ _ (other _ (Or.inr rfl))).trans endLeaf)
          (rep.revalue leaf entry key) clear
  count := by
    rw [size, dom_put_of_mem (mem_dom_of_eq_some entry)]
    exact holds.count
  stateless := holds.stateless
  calm := holds.calm

end Revalue

/-! ### The members of the interface -/

section Members

variable [Variant H] [HeaderSpec H] [LawfulVariant H]

section Trees

variable {tr : Traits K V n} {s : St H K V n} {e : Addr} {M : Contents n V} {own : Set Addr}

/-- **Values are inserted** one after the other. -/
theorem insertEach_spec (admits : Admits H n) : ∀ (xs : List V) {s : St H K V n} {M : Contents n V}
    {own : Set Addr}, Holds tr s e M own →
    ∃ s' M' own', insertEach tr xs s = .ok ⟨⟩ s' ∧ Holds tr s' e M' own' ∧ Moves s s' own own' ∧
      values M' = xs.foldl (fun m x => m.putNew (tr.keyOf x) x) (values M)
  | [], s, M, own, holds => ⟨s, M, own, rfl, holds, Moves.refl s own, rfl⟩
  | x :: xs, s, M, own, holds => by
      obtain ⟨answer, s₁, M₁, own₁, run, holds₁, moves₁, values₁, -⟩ :=
        perform_spec admits holds (.insert x)
      obtain ⟨pair, t, inserted, finish⟩ := Exec.bind_eq_ok.mp run
      cases finish
      obtain ⟨s', M', own', rest, holds', moves', values'⟩ := insertEach_spec admits xs holds₁
      refine ⟨s', M', own', ?_, holds', moves₁.trans moves', ?_⟩
      · have first : (do let _ ← insertUnique tr x : Run H K V n Unit) s = .ok ⟨⟩ s₁ :=
          Exec.bind_of_ok inserted _
        exact (Exec.bind_of_ok first _).trans rest
      · rw [values', List.foldl_cons, values₁]

/-- **`assign_unique`** leaves the values of the range. -/
theorem assignUnique_spec (admits : Admits H n) (holds : Holds tr s e M own) (xs : List V) :
    ∃ s' M' own', assignUnique tr xs s = .ok ⟨⟩ s' ∧ Holds tr s' e M' own' ∧ Moves s s' own own' ∧
      values M' = Table.ofList tr xs := by
  obtain ⟨s₁, cleared, holds₁, moves₁, -⟩ := clear_spec holds
  obtain ⟨s', M', own', run, holds', moves', values'⟩ := insertEach_spec admits xs holds₁
  exact ⟨s', M', own', (Exec.bind_of_ok cleared _).trans run, holds', moves₁.trans moves', values'⟩

/-- **`count`.** -/
theorem countOf_spec (holds : Holds tr s e M own) (k : K) :
    countOf tr k s = .ok (if M (tr.defaultTransform k) = none then 0 else 1) s := by
  unfold countOf
  rw [Exec.bind_of_ok (find_spec holds k), Exec.bind_of_ok (endIt_spec holds)]
  rcases entry : M (tr.defaultTransform k) with _ | ⟨it, v⟩
  · show EStateM.Result.ok (if e = e then 0 else 1) s = _
    rw [if_pos rfl, if_pos rfl]
  · obtain ⟨-, -, differ, -⟩ := holds.entry entry
    show EStateM.Result.ok (if it = e then 0 else 1) s = _
    rw [if_neg differ, if_neg (Option.some_ne_none _)]

end Trees

section Maps

variable {tr : Traits K (K × T) n} {s : St H K (K × T) n} {e it : Addr} {M : Contents n (K × T)}
  {own : Set Addr} {w : Key n} {v : K × T}

omit [Variant H] [HeaderSpec H] [LawfulVariant H] in
theorem keyOf_eq (first : tr.keyOfValue = Prod.fst) (x : K × T) :
    tr.keyOf x = tr.defaultTransform x.1 := by
  rw [Traits.keyOf, first]

omit [LawfulVariant H] in
/-- **`it->second`.** -/
theorem mappedAt_spec (holds : Holds tr s e M own) (entry : M w = some (it, v)) :
    mappedAt it s = .ok v.2 s := by
  obtain ⟨-, -, -, q, leaf⟩ := holds.entry entry
  exact Exec.bind_of_ok (leafValue_ok leaf) _

omit [LawfulVariant H] in
/-- **`it->second = t;`** -/
theorem setMapped_spec (first : tr.keyOfValue = Prod.fst) (holds : Holds tr s e M own)
    (entry : M w = some (it, v)) (t : T) :
    ∃ s', setMapped it t s = .ok ⟨⟩ s' ∧ Holds tr s' e (put M w (it, (v.1, t))) own ∧
      Moves s s' own own := by
  obtain ⟨rfl, inside, -, q, leaf⟩ := holds.entry entry
  have key : tr.keyOf (v.1, t) = tr.keyOf v := by rw [keyOf_eq first, keyOf_eq first]
  refine ⟨s.withMem (s.mem.set it ⟨some q, .leaf (v.1, t)⟩), ?_, holds.revalue entry leaf key,
    ⟨Memory.keeps_set _ _ inside, Memory.Renews.of_next own rfl, rfl⟩⟩
  unfold setMapped
  rw [Exec.bind_of_ok (load_ok leaf)]
  rfl

/-- **`operator[]`** finds the element of a key, or makes one. -/
theorem subscript_spec (first : tr.keyOfValue = Prod.fst) (admits : Admits H n)
    (holds : Holds tr s e M own) (mapped : T) (k : K) :
    ∃ it s' M' own', subscript tr mapped k s = .ok it s' ∧ Holds tr s' e M' own' ∧
      Moves s s' own own' ∧
      values M' = (values M).putNew (tr.defaultTransform k) (k, mapped) ∧
      M' (tr.defaultTransform k)
        = some (it, (values M (tr.defaultTransform k)).elim (k, mapped) id) := by
  have key : tr.keyOf (k, mapped) = tr.defaultTransform k := keyOf_eq first _
  unfold subscript
  rw [Exec.bind_of_ok (find_spec holds k), Exec.bind_of_ok (endIt_spec holds)]
  rcases entry : M (tr.defaultTransform k) with _ | ⟨it, v⟩
  · have absent : values M (tr.defaultTransform k) = none := values_eq_none.mpr entry
    rw [← key] at entry
    rcases emplaceUnique_spec admits holds (k, mapped) with
      ⟨it, v, s', found, -⟩ | ⟨-, it, s', own', run, holds', moves⟩
    · rw [found] at entry
      cases entry
    · rw [key] at holds'
      refine ⟨it, s', _, own', ?_, holds', moves, ?_, ?_⟩
      · show (if e ≠ e then pure e else _ : Run H K (K × T) n Addr) s = _
        rw [if_neg (not_not.mpr rfl)]
        exact Exec.bind_of_ok run _
      · rw [values_put, putNew_of_none absent]
      · rw [put_self, absent]
        rfl
  · obtain ⟨-, -, differ, -⟩ := holds.entry entry
    have present : values M (tr.defaultTransform k) = some v := values_eq_some.mpr ⟨it, entry⟩
    refine ⟨it, s, M, own, ?_, holds, Moves.refl s own, ?_, ?_⟩
    · show (if it ≠ e then pure it else _ : Run H K (K × T) n Addr) s = _
      rw [if_pos differ]
      rfl
    · rw [putNew_of_some (by rw [present]; exact Option.some_ne_none v)]
    · rw [entry, present]
      rfl

/-- **`at`** finds the element of a key, or throws. -/
theorem mapAt_spec (holds : Holds tr s e M own) (k : K) :
    mapAt tr k s = .ok ((M (tr.defaultTransform k)).elim (.error "radix_map::at") fun entry =>
      .ok entry.1) s := by
  unfold mapAt
  rw [Exec.bind_of_ok (find_spec holds k), Exec.bind_of_ok (endIt_spec holds)]
  rcases entry : M (tr.defaultTransform k) with _ | ⟨it, v⟩
  · exact congrFun (if_pos rfl) s
  · obtain ⟨-, -, differ, -⟩ := holds.entry entry
    exact congrFun (if_neg differ) s

/-! ### Calls of a user -/

/-- **A legal call of a user** returns, keeps the invariant and answers as the reference map does. -/
theorem performMap_spec (first : tr.keyOfValue = Prod.fst) (admits : Admits H n)
    (holds : Holds tr s e M own) (mapped : T) {c : MapCall K T} {m' : Table Byte n (K × T)}
    (effect : c.Effect tr mapped s (values M) m') :
    ∃ answer s' M' own', performMap tr mapped c s = .ok answer s' ∧ Holds tr s' e M' own' ∧
      Moves s s' own own' ∧ values M' = m' ∧ c.Answered tr mapped s s' (values M) answer := by
  cases effect with
  | tree effect =>
      obtain ⟨answer, s', M', own', run, holds', moves, same, answered, -⟩ :=
        perform_spec admits holds effect
      exact ⟨_, s', M', own', Exec.bind_of_ok run _, holds', moves, same, .tree answered⟩
  | insertRange xs =>
      obtain ⟨s', M', own', run, holds', moves, same⟩ := insertEach_spec admits xs holds
      exact ⟨_, s', M', own', Exec.bind_of_ok run _, holds', moves, same, .insertRange xs⟩
  | assignList xs =>
      obtain ⟨s', M', own', run, holds', moves, same⟩ := assignUnique_spec admits holds xs
      exact ⟨_, s', M', own', Exec.bind_of_ok run _, holds', moves, same, .assignList xs⟩
  | subscript k =>
      obtain ⟨it, s', M', own', run, holds', moves, same, entry⟩ :=
        subscript_spec first admits holds mapped k
      refine ⟨_, s', M', own', (Exec.bind_of_ok run _).trans
        (Exec.bind_of_ok (mappedAt_spec holds' entry) _), holds', moves, same, ?_⟩
      have value : ((values M (tr.defaultTransform k)).elim (k, mapped) id).2
          = (values M (tr.defaultTransform k)).elim mapped Prod.snd := by
        cases values M (tr.defaultTransform k) <;> rfl
      rw [value]
      exact .subscript k
  | assign k t =>
      obtain ⟨it, s₁, M₁, own₁, run, holds₁, moves₁, same, entry⟩ :=
        subscript_spec first admits holds mapped k
      obtain ⟨s', written, holds', moves'⟩ := setMapped_spec first holds₁ entry t
      refine ⟨_, s', _, own₁, (Exec.bind_of_ok run _).trans (Exec.bind_of_ok written _), holds',
        moves₁.trans moves', ?_, .assign k t⟩
      rw [values_put, same, Table.assignMapped]
      funext u
      by_cases mine : u = tr.defaultTransform k
      · subst mine
        rw [put_self, put_self]
        cases values M (tr.defaultTransform k) <;> rfl
      · rw [put_of_ne _ _ mine, put_of_ne _ _ mine, Table.putNew]
        split_ifs
        · exact put_of_ne _ _ mine
        · rfl
  | readAt k =>
      have run := mapAt_spec holds k
      have answered : MapCall.Answered tr mapped s s (values M) (.readAt k) _ := .readAt k
      rcases entry : M (tr.defaultTransform k) with _ | ⟨it, v⟩
      · rw [values_eq_none.mpr entry] at answered
        rw [entry] at run
        exact ⟨_, s, M, own, Exec.bind_of_ok run _, holds, Moves.refl s own, rfl, answered⟩
      · rw [values_eq_some.mpr ⟨it, entry⟩] at answered
        rw [entry] at run
        exact ⟨_, s, M, own, (Exec.bind_of_ok run _).trans (Exec.bind_of_ok (mappedAt_spec holds entry) _),
          holds, Moves.refl s own, rfl, answered⟩
  | writeAt k t =>
      have run := mapAt_spec holds k
      have answered : ∀ s', MapCall.Answered tr mapped s s' (values M) (.writeAt k t) _ := fun _ =>
        .writeAt k t
      rcases entry : M (tr.defaultTransform k) with _ | ⟨it, v⟩
      · rw [values_eq_none.mpr entry] at answered ⊢
        rw [entry] at run
        exact ⟨_, s, M, own, Exec.bind_of_ok run _, holds, Moves.refl s own, rfl, answered s⟩
      · have present : values M (tr.defaultTransform k) = some v := values_eq_some.mpr ⟨it, entry⟩
        rw [present] at answered ⊢
        rw [entry] at run
        obtain ⟨s', written, holds', moves'⟩ := setMapped_spec first holds entry t
        refine ⟨_, s', _, own, (Exec.bind_of_ok run _).trans (Exec.bind_of_ok written _), holds', moves',
          ?_, answered s'⟩
        rw [values_put, Option.elim_some, Table.assignMapped, present]
        rfl
  | setMapped it t v stored =>
      obtain ⟨s', written, holds', moves'⟩ :=
        setMapped_spec first holds (holds.stored_iff.mp stored) t
      exact ⟨_, s', _, own, Exec.bind_of_ok written _, holds', moves', values_put M _ it _,
        .setMapped it t⟩
  | count k =>
      refine ⟨_, s, M, own, Exec.bind_of_ok (countOf_spec holds k) _, holds, Moves.refl s own, rfl, ?_⟩
      have answered : MapCall.Answered tr mapped s s (values M) (.count k) _ := .count k
      simpa only [values_eq_none] using answered

end Maps

end Members

/-! ### Histories of a user -/

/-- **A map of a user answers as the reference map does**, and an iteration visits its elements in the
order of their keys. -/
structure MapRefines [Variant H] (tr : Traits K (K × T) n) (mapped : T) (s : St H K (K × T) n)
    (m : Table Byte n (K × T)) : Prop where
  represents : Represents tr s m
  size : s.tree.count = size m
  iterates : ∃ its, Iterates tr s its
  perform : ∀ (c : MapCall K T) m', c.Effect tr mapped s m m' →
    ∃ answer s', performMap tr mapped c s = .ok answer s' ∧ c.Answered tr mapped s s' m answer

section Histories

variable [Variant H] [HeaderSpec H] [LawfulVariant H] {tr : Traits K (K × T) n} {mapped : T}
  {s : St H K (K × T) n} {m : Table Byte n (K × T)}

/-- **The invariant holds after every history of a user.** -/
theorem MapHistory.holds (first : tr.keyOfValue = Prod.fst) (admits : Admits H n)
    (history : MapHistory tr mapped s m) : ∃ e M own, Holds tr s e M own ∧ values M = m := by
  induction history with
  | @start mem s calm run =>
      obtain ⟨s₁, run₁, holds, -⟩ := init_spec tr calm (Tree.uninitialised tr.defaultTransform) rfl
      cases run.symm.trans run₁
      exact ⟨_, _, _, holds, rfl⟩
  | @call s s' m m' c answer _ effect run ih =>
      obtain ⟨e, M, own, holds, rfl⟩ := ih
      obtain ⟨answer₁, s₁, M', own', run₁, holds', -, same, -⟩ :=
        performMap_spec first admits holds mapped effect
      cases run.symm.trans run₁
      exact ⟨e, M', own', holds', same⟩

/-- **After every history of a user** the map answers as the reference map does. -/
theorem MapHistory.refines (first : tr.keyOfValue = Prod.fst) (admits : Admits H n)
    (history : MapHistory tr mapped s m) : MapRefines tr mapped s m := by
  obtain ⟨e, M, own, holds, rfl⟩ := history.holds first admits
  obtain ⟨ks, lists⟩ := Dir.exists_lists (Set.toFinite (dom M))
  refine ⟨holds.represents, holds.count.trans (size_values M).symm, ⟨_, holds.iterates lists⟩,
    fun c m' effect => ?_⟩
  obtain ⟨answer, s', M', own', run, -, -, -, answered⟩ :=
    performMap_spec first admits holds mapped effect
  exact ⟨answer, s', run, answered⟩

/-- A user writes to the mapped value of a key of an empty map, twice. -/
theorem exists_written (tr : Traits K (K × T) n) (first : tr.keyOfValue = Prod.fst) (admits : Admits H n) (mapped : T) (k : K)
    (t t' : T) : ∃ (s : St H K (K × T) n) (m : Table Byte n (K × T)), MapHistory tr mapped s m ∧
      m (tr.defaultTransform k) = some (k, t') := by
  obtain ⟨s₀, run₀, -⟩ := init_spec (H := H) tr (rfl : Memory.blank.failAt = none)
    (Tree.uninitialised tr.defaultTransform) rfl
  have history₀ : MapHistory tr mapped s₀ Table.empty := .start rfl run₀
  have effect : MapCall.Effect tr mapped s₀ Table.empty (.assign k t) _ := .assign k t
  obtain ⟨answer₁, s₁, run₁, -⟩ := (history₀.refines first admits).perform _ _ effect
  have history₁ := history₀.call effect run₁
  have effect' : MapCall.Effect tr mapped s₁ (Table.empty.assignMapped (tr.defaultTransform k) k t)
      (.assign k t') _ := .assign k t'
  obtain ⟨answer₂, s₂, run₂, -⟩ := (history₁.refines first admits).perform _ _ effect'
  refine ⟨s₂, _, history₁.call effect' run₂, ?_⟩
  rw [Table.assignMapped, Table.assignMapped, put_self, put_self]
  rfl

end Histories

/-! ### Maps over either tree -/

/-- **A `radix_map` refines a finite map**, over an `ar_tree`, and over an `ar_prefix_tree` for keys whose
prefix lengths fit `_prefix_length`. -/
theorem radix_map_refines {K T : Type} {n : ℕ} (keyTransform : K → Key n) (defaultKey : K) (mapped : T) :
    (∀ (s : ArTree.State K (K × T) n) (m : Table Byte n (K × T)),
      MapHistory (Traits.map keyTransform defaultKey) mapped s m →
      MapRefines (Traits.map keyTransform defaultKey) mapped s m) ∧
    ∀ (s : ArPrefixTree.State K (K × T) n) (m : Table Byte n (K × T)), n ≤ 65536 →
      MapHistory (Traits.map keyTransform defaultKey) mapped s m →
      MapRefines (Traits.map keyTransform defaultKey) mapped s m :=
  ⟨fun _ _ history => history.refines rfl trivial, fun _ _ fits history => history.refines rfl fits⟩

/-- A mapped value that has been written twice, in a map over either tree. -/
theorem radix_map_refines_written :
    (∃ (s : ArTree.State (Key 1) (Key 1 × ℕ) 1) (m : Table Byte 1 (Key 1 × ℕ)),
      m ⟨#v[7]⟩ = some (⟨#v[7]⟩, 6) ∧ MapRefines (Traits.map id ⟨#v[0]⟩) 0 s m) ∧
    ∃ (s : ArPrefixTree.State (Key 1) (Key 1 × ℕ) 1) (m : Table Byte 1 (Key 1 × ℕ)),
      m ⟨#v[7]⟩ = some (⟨#v[7]⟩, 6) ∧ MapRefines (Traits.map id ⟨#v[0]⟩) 0 s m := by
  have fits : 1 ≤ 65536 := by decide
  obtain ⟨s, m, history, written⟩ := exists_written (H := DepthHeader)
    (Traits.map (n := 1) id ⟨#v[0]⟩) rfl trivial (0 : ℕ) ⟨#v[7]⟩ 5 6
  obtain ⟨s', m', history', written'⟩ := exists_written (H := PrefixHeader)
    (Traits.map (n := 1) id ⟨#v[0]⟩) rfl fits (0 : ℕ) ⟨#v[7]⟩ 5 6
  exact ⟨⟨s, m, written, (radix_map_refines id ⟨#v[0]⟩ 0).1 s m history⟩,
    s', m', written', (radix_map_refines id ⟨#v[0]⟩ 0).2 s' m' fits history'⟩

end CppArt
