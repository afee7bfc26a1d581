/-
**A `radix_set` is a sorted set of its keys.**

* `spans_between`: between two positions of a container lie the elements between them, by induction on
  their number;
* `History.insertEach`, `History.eraseBetween`: a range is inserted and erased;
* `SetCall.Does.performs`: a call does to a set of keys what it should, and says so;
* `SetHistory.spelled`: and so after every history, by induction;
* `radix_set_sorted`.
-/

import CppArt.Model.SortedSet
import CppArt.Proof.EraseRange
import CppArt.Proof.SortedMap

namespace CppArt

open Table

variable {H K V : Type} {n : ℕ}

/-! ### Ranges -/

section Ranges

variable [Header H] [HeaderSpec H] {tr : Traits K V n} {s : St H K V n} {e : Addr} {M : Contents n V}
  {own : Set Addr}

/-- **Between two positions** lie the elements whose keys are from the first one on and not from the
second one on. -/
theorem spans_between (holds : Holds tr s e M own) {last : Addr} {B : Set (Key n)} (closed : IsUpperSet B)
    (ends : Designates M e (dom M ∩ B) last) :
    ∀ (count : ℕ) {A : Set (Key n)} {first : Addr}, (dom M ∩ (A \ B)).ncard = count → IsUpperSet A →
      B ⊆ A → Designates M e (dom M ∩ A) first → ∃ its, Spans tr s first last its ∧ its.length = count ∧
        ∀ it, it ∈ its ↔ ∃ w v, M w = some (it, v) ∧ w ∈ A \ B
  | 0, A, first, number, _, sub, starts => by
      have none : dom M ∩ (A \ B) = ∅ := (Set.ncard_eq_zero (Set.toFinite _)).mp number
      have same : dom M ∩ A = dom M ∩ B := by
        refine Set.Subset.antisymm (fun w inside => ⟨inside.1, ?_⟩) (Set.inter_subset_inter_right _ sub)
        by_contra outside
        have between : w ∈ dom M ∩ (A \ B) := ⟨inside.1, inside.2, outside⟩
        rw [none] at between
        exact between
      rw [same] at starts
      refine ⟨[], ⟨[], rfl, by rw [starts.unique ends]; rfl⟩, rfl, fun it => ?_⟩
      refine iff_of_false List.not_mem_nil ?_
      rintro ⟨w, v, entry, between⟩
      have inside : w ∈ dom M ∩ (A \ B) := ⟨mem_dom_of_eq_some entry, between⟩
      rw [none] at inside
      exact inside
  | count + 1, A, first, number, upper, sub, starts => by
      obtain ⟨u, inside⟩ : (dom M ∩ (A \ B)).Nonempty := by
        apply Set.nonempty_of_ncard_ne_zero
        rw [number]
        exact Nat.succ_ne_zero count
      obtain ⟨w, v, entry, least⟩ | ⟨none, -⟩ := starts
      · rw [Dir.isFirst_up_iff] at least
        have outside : w ∉ B := fun beyond =>
          inside.2.2 (closed (least.2 ⟨inside.1, inside.2.1⟩) beyond)
        have sub' : B ⊆ Set.Ioi w := fun u beyond =>
          lt_of_not_ge fun le => outside (closed le beyond)
        obtain ⟨next, run, follows⟩ := increment_spec holds entry
        have split : dom M ∩ (A \ B) = insert w (dom M ∩ (Set.Ioi w \ B)) := by
          ext x
          rw [Set.mem_insert_iff]
          constructor
          · intro between
            rcases (least.2 ⟨between.1, between.2.1⟩).eq_or_lt with same | less
            · exact .inl same.symm
            · exact .inr ⟨between.1, less, between.2.2⟩
          · rintro (rfl | between)
            · exact ⟨least.1.1, least.1.2, outside⟩
            · exact ⟨between.1, upper (le_of_lt between.2.1) least.1.2, between.2.2⟩
        have fewer : (dom M ∩ (Set.Ioi w \ B)).ncard = count := by
          rw [split, Set.ncard_insert_of_notMem fun again => lt_irrefl w again.2.1] at number
          exact Nat.succ.inj number
        obtain ⟨its, ⟨rest, walked, visited⟩, length, members⟩ :=
          spans_between holds closed ends count fewer (isUpperSet_Ioi w) sub' follows
        refine ⟨first :: its, ⟨next :: rest, ?_, by rw [visited]; rfl⟩, by rw [List.length_cons, length],
          fun it => ?_⟩
        · exact (Exec.bind_of_ok run _).trans (Exec.bind_of_ok walked _)
        · rw [List.mem_cons, members]
          constructor
          · rintro (rfl | ⟨x, y, entry', between⟩)
            · exact ⟨w, v, entry, least.1.2, outside⟩
            · exact ⟨x, y, entry', upper (le_of_lt between.1) least.1.2, between.2⟩
          · rintro ⟨x, y, entry', between⟩
            have member : x ∈ dom M ∩ (A \ B) := ⟨mem_dom_of_eq_some entry', between⟩
            rw [split] at member
            rcases member with rfl | beyond
            · rw [entry, Option.some.injEq, Prod.mk.injEq] at entry'
              exact .inl entry'.1.symm
            · exact .inr ⟨x, y, entry', beyond.2⟩
      · have member : u ∈ dom M ∩ A := ⟨inside.1, inside.2.1⟩
        rw [none] at member
        exact absurd member (Set.notMem_empty u)

end Ranges

section Histories

variable [Variant H] [HeaderSpec H] [LawfulVariant H] {tr : Traits K V n} {s : St H K V n}
  {m : Table Byte n V}

/-- **A range of values is inserted.** -/
theorem History.insertEach (admits : Admits H n) (xs : List V) :
    ∀ {s : St H K V n} {m : Table Byte n V}, History tr s m → ∃ s', CppArt.insertEach tr xs s = .ok ⟨⟩ s' ∧
      History tr s' (xs.foldl (fun m x => m.putNew (tr.keyOf x) x) m) := by
  induction xs with
  | nil => exact fun {s m} history => ⟨s, rfl, history⟩
  | cons x xs ih =>
      intro s m history
      obtain ⟨answer, s₁, run, -⟩ := (history.refines admits).perform _ _ (.insert x)
      obtain ⟨s', rest, history'⟩ := ih (history.call (.insert x) run)
      obtain ⟨pair, t, inserted, finish⟩ := Exec.bind_eq_ok.mp run
      cases finish
      have first : (do let _ ← insertUnique tr x : Run H K V n Unit) s = .ok ⟨⟩ s₁ :=
        Exec.bind_of_ok inserted _
      exact ⟨s', (Exec.bind_of_ok first _).trans rest, history'⟩

/-- **A container is assigned a range of values.** -/
theorem History.assignUnique (admits : Admits H n) (xs : List V) (history : History tr s m) :
    ∃ s', CppArt.assignUnique tr xs s = .ok ⟨⟩ s' ∧ History tr s' (Table.ofList tr xs) := by
  obtain ⟨answer, s₁, run, -⟩ := (history.refines admits).perform _ _ .clear
  obtain ⟨s', rest, history'⟩ := (history.call .clear run).insertEach admits xs
  obtain ⟨⟨⟩, t, cleared, finish⟩ := Exec.bind_eq_ok.mp run
  cases finish
  exact ⟨s', (Exec.bind_of_ok cleared _).trans rest, history'⟩

/-- **The elements between two positions are erased**, and no others. -/
theorem History.eraseBetween (admits : Admits H n) (history : History tr s m) {A B : Set (Key n)}
    {first last : Addr} (upper : IsUpperSet A) (closed : IsUpperSet B) (sub : B ⊆ A)
    (starts : PointsTo tr s (dom m ∩ A) first) (ends : PointsTo tr s (dom m ∩ B) last) :
    ∃ s' m', eraseRange tr (s.tree.count + 1) first last s = .ok last s' ∧ History tr s' m' ∧
      (∀ w v, m' w = some v ↔ m w = some v ∧ w ∉ A \ B) ∧ (IsEnd s last → IsEnd s' last) ∧
      ∀ v, Stored s last v → Stored s' last v := by
  obtain ⟨e, M, own, holds, rfl⟩ := history.holds admits
  rw [dom_values] at starts ends
  obtain ⟨its, spans, length, members⟩ :=
    spans_between holds closed (holds.designates ends) _ rfl upper sub (holds.designates starts)
  have place : IsEnd s first ∨ ∃ v, Stored s first v :=
    starts.symm.imp And.right fun found => ⟨found.choose, found.choose_spec.1⟩
  obtain ⟨s', loop, erased⟩ := (history.erasure admits).2 first last its place spans
  obtain ⟨m', history'⟩ := erased.history
  refine ⟨s', m', loop _ ?_, history', fun w v => ?_, erased.ended, erased.element⟩
  · rw [length, holds.count, Nat.lt_succ_iff]
    exact Set.ncard_le_ncard Set.inter_subset_left (Set.toFinite _)
  · rw [(history'.refines admits).represents.entries, values_eq_some]
    constructor
    · rintro ⟨it, stored, rfl⟩
      obtain ⟨before, apart⟩ := (erased.stored it v).mp stored
      have entry := holds.stored_iff.mp before
      exact ⟨⟨it, entry⟩, fun between => apart ((members it).mpr ⟨_, v, entry, between⟩)⟩
    · rintro ⟨⟨it, entry⟩, outside⟩
      obtain ⟨before, key⟩ := holds.stored_of_entry entry
      refine ⟨it, (erased.stored it v).mpr ⟨before, fun listed => ?_⟩, key⟩
      obtain ⟨w', v', entry', between⟩ := (members it).mp listed
      exact outside ((holds.key_unique entry entry').1 ▸ between)

end Histories

/-! ### Calls -/

/-- The words from a position on. -/
def wordsFrom (word : K → Key n) (first : Option K) : Set (Key n) := {w | ∃ a, first = some a ∧ word a ≤ w}

section Calls

variable {word : K → Key n} {defaultKey : K} {less : K → K → Prop} {σ : Set K} {m : Table Byte n K}

theorem isUpperSet_wordsFrom (word : K → Key n) (first : Option K) : IsUpperSet (wordsFrom word first) := by
  rintro w w' le ⟨a, here, from_a⟩
  exact ⟨a, here, from_a.trans le⟩

theorem mem_wordsFrom (spelling : Spelling less word) {first : Option K} {k : K} :
    word k ∈ wordsFrom word first ↔ k ∈ From less first := by
  refine exists_congr fun a => and_congr_right fun _ => ?_
  rw [← not_lt, spelling.lt_iff]

theorem wordsFrom_subset (spelling : Spelling less word) {lower upper : Option K}
    (ordered : NotBehind less lower upper) : wordsFrom word upper ⊆ wordsFrom word lower := by
  rintro w ⟨b, here, from_b⟩
  obtain ⟨a, there, le⟩ := ordered b here
  rw [← spelling.lt_iff, not_lt] at le
  exact ⟨a, there, le.trans from_b⟩

/-- The iterator at a position points to the least key from there on. -/
theorem Position.pointsTo {s : St H K K n} {it : Addr} {pos : Option K} (position : Position s it pos)
    (spells : SpellsSet word σ m) (inside : ∀ k, Stored s it k → k ∈ σ) :
    PointsTo (Traits.set word defaultKey) s (dom m ∩ wordsFrom word pos) it := by
  cases position with
  | element k stored =>
      refine .inl ⟨k, stored, ⟨?_, k, rfl, le_rfl⟩, ?_⟩
      · exact mem_dom_of_eq_some (spells.apply_of_mem (inside k stored))
      · rintro w ⟨-, a, here, from_a⟩
        cases here
        exact from_a
  | ended isEnd =>
      refine .inr ⟨Set.eq_empty_of_forall_notMem ?_, isEnd⟩
      rintro w ⟨-, a, here, -⟩
      cases here

/-- The iterator to the least word above that of a key is at the position that follows. -/
theorem exists_position (spelling : Spelling less word) (spells : SpellsSet word σ m) {s : St H K K n}
    {k : K} {it : Addr} (points : PointsTo (Traits.set word defaultKey) s {u | u ∈ dom m ∧ word k < u} it) :
    ∃ upper, Position s it upper ∧ σ ∩ {u | less k u} = σ ∩ From less upper := by
  rcases points with ⟨u, stored, least⟩ | ⟨none, ended⟩
  · refine ⟨some u, .element u stored, ?_⟩
    ext w
    refine and_congr_right fun member => ?_
    have inside : word w ∈ dom m := mem_dom_of_eq_some (spells.apply_of_mem member)
    rw [← mem_wordsFrom spelling]
    constructor
    · intro above
      exact ⟨u, rfl, least.2 ⟨inside, (spelling.lt_iff k w).mpr above⟩⟩
    · rintro ⟨a, here, from_a⟩
      cases here
      exact (spelling.lt_iff k w).mp (least.1.2.trans_le from_a)
  · refine ⟨Option.none, .ended ended, ?_⟩
    ext w
    refine and_congr_right fun member => iff_of_false (fun above => ?_) ?_
    · have inside : word w ∈ {u | u ∈ dom m ∧ word k < u} :=
        ⟨mem_dom_of_eq_some (spells.apply_of_mem member), (spelling.lt_iff k w).mpr above⟩
      rw [none] at inside
      exact inside
    · rintro ⟨a, here, -⟩
      cases here

/-- A key is put in, if it is not there. -/
theorem SpellsSet.putNew (injective : Function.Injective word) (spells : SpellsSet word σ m) (k : K) :
    SpellsSet word (insert k σ) (m.putNew (word k) k) := by
  rw [Table.putNew]
  by_cases member : k ∈ σ
  · rw [if_neg fun none => (spells.apply_eq_none injective k).mp none member, Set.insert_eq_of_mem member]
    exact spells
  · rw [if_pos ((spells.apply_eq_none injective k).mpr member)]
    exact spells.put injective k

/-- The keys of a list are put in. -/
theorem SpellsSet.foldl (injective : Function.Injective word) (xs : List K) :
    ∀ {σ : Set K} {m : Table Byte n K}, SpellsSet word σ m → SpellsSet word (σ ∪ {k | k ∈ xs})
      (xs.foldl (fun m x => m.putNew ((Traits.set word defaultKey).keyOf x) x) m) := by
  induction xs with
  | nil =>
      intro σ m spells
      rwa [show σ ∪ {k | k ∈ ([] : List K)} = σ by simp]
  | cons x xs ih =>
      intro σ m spells
      have all : σ ∪ {k | k ∈ x :: xs} = insert x σ ∪ {k | k ∈ xs} := by
        ext k
        simp only [Set.mem_union, Set.mem_insert_iff, Set.mem_ofPred_eq, List.mem_cons]
        tauto
      rw [all]
      exact ih (spells.putNew injective x)

/-- **A call on a set of keys** does what it should and returns what it should. -/
theorem SetCall.Does.performs [Variant H] [HeaderSpec H] [LawfulVariant H] (spelling : Spelling less word)
    (admits : Admits H n) {s : St H K K n} (history : History (Traits.set word defaultKey) s m)
    (spells : SpellsSet word σ m) {c : SetCall K} {σ' : Set K} (does : c.Does less s σ σ') :
    ∃ answer s', performSet (Traits.set word defaultKey) c s = .ok answer s' ∧
      (∃ m', History (Traits.set word defaultKey) s' m' ∧ SpellsSet word σ' m') ∧
      c.Says less s s' σ answer := by
  have injective := spelling.injective
  have absent := spells.apply_eq_none injective
  have counted : ∀ k, (k ∈ σ ∧ (if m (word k) = none then 0 else 1) = 1) ∨
      (k ∉ σ ∧ (if m (word k) = none then 0 else 1) = 0) := by
    intro k
    by_cases member : k ∈ σ
    · exact .inl ⟨member, if_neg fun none => (absent k).mp none member⟩
    · exact .inr ⟨member, if_pos ((absent k).mpr member)⟩
  have refines := history.refines admits
  cases does with
  | insert k =>
      obtain ⟨answer, s', run, answered⟩ := refines.perform _ _ (.insert k)
      refine ⟨_, s', Exec.bind_of_ok run _, ⟨_, history.call (.insert k) run, spells.putNew injective k⟩, ?_⟩
      cases answered with
      | insert _ v it fresh stored key new =>
          obtain rfl : v = k := injective key
          exact .insert v it fresh stored (new.trans (absent v))
  | emplace k =>
      obtain ⟨answer, s', run, answered⟩ := refines.perform _ _ (.emplace k)
      refine ⟨_, s', Exec.bind_of_ok run _, ⟨_, history.call (.emplace k) run, spells.putNew injective k⟩, ?_⟩
      cases answered with
      | emplace _ v it fresh stored key new =>
          obtain rfl : v = k := injective key
          exact .emplace v it fresh stored (new.trans (absent v))
  | erase k =>
      obtain ⟨answer, s', run, answered⟩ := refines.perform _ _ (.erase k)
      refine ⟨_, s', Exec.bind_of_ok run _, ⟨_, history.call (.erase k) run, spells.drop injective k⟩, ?_⟩
      cases answered with
      | erase => exact .erase k _ (counted k)
  | eraseAt it k stored =>
      obtain ⟨answer, s', run, answered⟩ := refines.perform _ _ (.eraseAt it k stored)
      refine ⟨_, s', Exec.bind_of_ok run _,
        ⟨_, history.call (.eraseAt it k stored) run, spells.drop injective k⟩, ?_⟩
      cases answered with
      | eraseAt it next v stored' points =>
          obtain ⟨upper, position, follows⟩ := exists_position spelling spells points
          exact .eraseAt it next v stored' upper position follows
  | clear =>
      obtain ⟨answer, s', run, answered⟩ := refines.perform _ _ .clear
      refine ⟨_, s', Exec.bind_of_ok run _, ⟨_, history.call .clear run, SpellsSet.empty word⟩, ?_⟩
      cases answered with
      | clear => exact .clear
  | insertRange xs =>
      obtain ⟨s', run, history'⟩ := history.insertEach admits xs
      exact ⟨_, s', Exec.bind_of_ok run _, ⟨_, history', SpellsSet.foldl injective xs spells⟩,
        .insertRange xs⟩
  | assignList xs =>
      obtain ⟨s', run, history'⟩ := history.assignUnique admits xs
      have all : SpellsSet word (∅ ∪ {k | k ∈ xs}) (Table.ofList (Traits.set word defaultKey) xs) :=
        SpellsSet.foldl injective xs (SpellsSet.empty word)
      rw [Set.empty_union] at all
      exact ⟨_, s', Exec.bind_of_ok run _, ⟨_, history', all⟩, .assignList xs⟩
  | eraseRange first last lower upper starts ends ordered =>
      have inside : ∀ it k, Stored s it k → k ∈ σ := fun it k stored =>
        ((spells _ k).mp ((refines.represents.entries (word k) k).mpr ⟨it, stored, rfl⟩)).2
      obtain ⟨s', m', run, history', entries, ended, element⟩ := history.eraseBetween admits
        (isUpperSet_wordsFrom word lower) (isUpperSet_wordsFrom word upper)
        (wordsFrom_subset spelling ordered) (starts.pointsTo spells (inside first))
        (ends.pointsTo spells (inside last))
      refine ⟨_, s', (Exec.bind_of_ok (this_apply s) _).trans (Exec.bind_of_ok run _),
        ⟨m', history', fun w k => ?_⟩, .eraseRange first last fun upper position => ?_⟩
      · rw [entries, spells, and_assoc]
        refine and_congr_right fun same => ?_
        subst same
        rw [Set.mem_sdiff, Set.mem_sdiff, Set.mem_sdiff, mem_wordsFrom spelling, mem_wordsFrom spelling]
      · cases position with
        | element k stored => exact .element k (element k stored)
        | ended isEnd => exact .ended (ended isEnd)
  | count k =>
      obtain ⟨e, M, own, holds, rfl⟩ := history.holds admits
      have run := countOf_spec holds k
      refine ⟨_, s, Exec.bind_of_ok run _, ⟨_, history, spells⟩, .count k _ ?_⟩
      have found := counted k
      simp only [values_eq_none] at found
      exact found

/-- **After every history** the table of bytes spells the set of keys. -/
theorem SetHistory.spelled [Variant H] [HeaderSpec H] [LawfulVariant H] (spelling : Spelling less word)
    (admits : Admits H n) {s : St H K K n} (history : SetHistory (Traits.set word defaultKey) less s σ) :
    ∃ m, History (Traits.set word defaultKey) s m ∧ SpellsSet word σ m := by
  induction history with
  | start calm run => exact ⟨Table.empty, .start calm run, SpellsSet.empty word⟩
  | call history does run ih =>
      obtain ⟨m, before, spells⟩ := ih
      obtain ⟨answer, s', run', spelled, -⟩ := does.performs spelling admits before spells
      cases run.symm.trans run'
      exact spelled

end Calls

/-! ### Sorted sets -/

/-- **A container behaves as a sorted set.** -/
structure ActsAsSet [Variant H] (tr : Traits K K n) (less : K → K → Prop) (s : St H K K n) (σ : Set K) :
    Prop where
  size : s.tree.count = σ.ncard
  find : ∀ k, ∃ it, find tr k s = .ok it s ∧ ((k ∈ σ ∧ Stored s it k) ∨ (k ∉ σ ∧ IsEnd s it))
  visits : ∃ its keys, Iterates tr s its ∧ List.Forall₂ (Stored s) its keys ∧ keys.Pairwise less ∧
    ∀ k, k ∈ keys ↔ k ∈ σ
  perform : ∀ (c : SetCall K) σ', c.Does less s σ σ' →
    ∃ answer s', performSet tr c s = .ok answer s' ∧ c.Says less s s' σ answer

section Sets

variable [Variant H] [HeaderSpec H] [LawfulVariant H] {word : K → Key n} {defaultKey : K}
  {less : K → K → Prop}

/-- **After every history the container is a sorted set**, for any transformed keys that spell the keys. -/
theorem SetHistory.actsAsSet (spelling : Spelling less word) (admits : Admits H n) {s : St H K K n}
    {σ : Set K} (history : SetHistory (Traits.set word defaultKey) less s σ) :
    ActsAsSet (Traits.set word defaultKey) less s σ := by
  obtain ⟨m, bytes, spells⟩ := history.spelled spelling admits
  have refines := bytes.refines admits
  have stored : ∀ k, k ∈ σ ↔ ∃ it, Stored s it k := by
    intro k
    have entry := refines.represents.entries (word k) k
    rw [spells, and_iff_right rfl] at entry
    exact entry.trans (exists_congr fun it => and_iff_left rfl)
  refine ⟨refines.size.trans (spells.size_eq spelling.injective), fun k => ?_, ?_, fun c σ' does => ?_⟩
  · obtain ⟨it, run, ended, element⟩ := refines.find k
    refine ⟨it, run, ?_⟩
    by_cases member : k ∈ σ
    · exact .inl ⟨member, element k (spells.apply_of_mem member)⟩
    · exact .inr ⟨member, ended.mpr ((spells.apply_eq_none spelling.injective k).mpr member)⟩
  · obtain ⟨its, iterates⟩ := bytes.iterates admits
    have ordered : ∀ x y : K, (Traits.set word defaultKey).keyOf x
        < (Traits.set word defaultKey).keyOf y → less x y := fun _ _ => (spelling.lt_iff _ _).mp
    obtain ⟨keys, pairs, sorted, complete⟩ := iterates.sorted ordered stored
    exact ⟨its, keys, iterates, pairs, sorted, complete⟩
  · obtain ⟨answer, s', run, -, said⟩ := does.performs spelling admits bytes spells
    exact ⟨answer, s', run, said⟩

/-- A user inserts a list of keys into an empty set. -/
theorem exists_setHistory (spelling : Spelling less word) (defaultKey : K) (admits : Admits H n) (xs : List K) :
    ∃ (s : St H K K n) (σ : Set K), SetHistory (Traits.set word defaultKey) less s σ ∧
      ∀ k, k ∈ σ ↔ k ∈ xs := by
  obtain ⟨s₀, run₀, -⟩ := init_spec (H := H) (Traits.set word defaultKey)
    (rfl : Memory.blank.failAt = none) (Tree.uninitialised word) rfl
  have history₀ : SetHistory (Traits.set word defaultKey) less s₀ ∅ := .start rfl run₀
  have does : SetCall.Does less s₀ ∅ (.insertRange xs) _ := .insertRange xs
  obtain ⟨answer, s, run, -⟩ := (history₀.actsAsSet spelling admits).perform _ _ does
  refine ⟨s, _, history₀.call does run, fun k => ?_⟩
  rw [Set.empty_union]
  exact Iff.rfl

end Sets

/-- **A `radix_set` is a sorted set of its keys**, whenever the transformed keys spell them: every call does
and returns what it does on a set of the keys, and an iteration visits them in their order. -/
theorem radix_set_sorted {K : Type} {n : ℕ} {word : K → Key n} {less : K → K → Prop}
    (spelling : Spelling less word) (defaultKey : K) :
    (∀ (s : ArTree.State K K n) (σ : Set K), SetHistory (Traits.set word defaultKey) less s σ →
      ActsAsSet (Traits.set word defaultKey) less s σ) ∧
    ∀ (s : ArPrefixTree.State K K n) (σ : Set K), n ≤ 65536 →
      SetHistory (Traits.set word defaultKey) less s σ → ActsAsSet (Traits.set word defaultKey) less s σ :=
  ⟨fun _ _ history => history.actsAsSet spelling trivial,
    fun _ _ fits history => history.actsAsSet spelling fits⟩

/-- A set of a negative and a positive key over `ar_tree`, and of two strings over `ar_prefix_tree`. -/
theorem radix_set_sorted_pair :
    (∃ (s : ArTree.State signedKey.Value signedKey.Value signedKey.size) (σ : Set signedKey.Value),
      (-1 : BitVec 16) ∈ σ ∧ (1 : BitVec 16) ∈ σ ∧
      ActsAsSet (Traits.set (fun key => ⟨signedKey.keyBytes .littleEndian key⟩) (0 : BitVec 16))
        (fun x y => signedKey.less x y = true) s σ) ∧
    ∃ (s : ArPrefixTree.State (StringKey.CString 256) (StringKey.CString 256) 256)
      (σ : Set (StringKey.CString 256)), letterA ∈ σ ∧ letterB ∈ σ ∧
      ActsAsSet (Traits.set (fun key => ⟨key.transformed⟩) letterA)
        (fun x y => StringKey.compare x.bytes y.bytes = .lt) s σ := by
  have spelling := signedKey.spelling .littleEndian
  have fits : 256 ≤ 65536 := by decide
  obtain ⟨s, σ, history, members⟩ := exists_setHistory (H := DepthHeader) spelling (0 : BitVec 16) trivial
    [(-1 : BitVec 16), (1 : BitVec 16)]
  obtain ⟨s', σ', history', members'⟩ := exists_setHistory (H := PrefixHeader) StringKey.spelling letterA
    fits [letterA, letterB]
  refine ⟨⟨s, σ, (members _).mpr ?_, (members _).mpr ?_, (radix_set_sorted spelling (0 : BitVec 16)).1 s σ history⟩,
    s', σ', (members' _).mpr ?_, (members' _).mpr ?_,
    (radix_set_sorted StringKey.spelling letterA).2 s' σ' fits history'⟩
  · exact List.mem_cons_self
  · exact List.mem_cons_of_mem _ List.mem_cons_self
  · exact List.mem_cons_self
  · exact List.mem_cons_of_mem _ List.mem_cons_self

end CppArt
