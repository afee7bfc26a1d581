/-
**The relational operators of `radix_map` compare contents.**

`Reads tr s e it vs`: iterating from `it` reads the values `vs` up to the end `e`. A container is read as
the list of its values in ascending order of their transformed keys (`Holds.sequence`), and two such
lists with the same members are the same (`Sequence.unique`). `std::equal` compares the lists
(`stdEqual_spec`) and `std::lexicographical_compare` is the lexicographic order of lists of pairs
(`lexicographicalCompare_spec`), both by induction on what is read.

* `relational_operators`: the operators on the containers of any world, for both trees.
-/

import CppArt.Model.RadixMap
import CppArt.Proof.Iteration
import CppArt.Proof.World

namespace CppArt

open Table

variable {H K T V : Type} {n : ℕ}

/-! ### Reading a container -/

/-- **Iterating from `it` reads these values**, up to the end. -/
inductive Reads [Header H] (tr : Traits K V n) (s : St H K V n) (e : Addr) : Addr → List V → Prop
  | ended : Reads tr s e e []
  | cons {it next : Addr} {v : V} {vs : List V} (differ : it ≠ e) (value : leafValue it s = .ok v s)
      (run : increment tr it s = .ok next s) (rest : Reads tr s e next vs) : Reads tr s e it (v :: vs)

/-- **A container is read as the list of its values**, in ascending order of their keys. -/
structure Sequence [Header H] (tr : Traits K V n) (s : St H K V n) (vs : List V) : Prop where
  begins : ∃ first last, beginIt s = .ok first s ∧ endIt s = .ok last s ∧ Reads tr s last first vs
  members : ∀ v, v ∈ vs ↔ ∃ it, Stored s it v
  ascending : vs.Pairwise fun v v' => tr.keyOf v < tr.keyOf v'
  length : vs.length = s.tree.count

/-- Two ascending lists with the same members are the same. -/
theorem eq_of_members {tr : Traits K V n} {vs us : List V}
    (ascending : vs.Pairwise fun v v' => tr.keyOf v < tr.keyOf v')
    (ascending' : us.Pairwise fun v v' => tr.keyOf v < tr.keyOf v') (same : ∀ v, v ∈ vs ↔ v ∈ us) :
    vs = us := by
  have nodup : ∀ xs : List V, (xs.Pairwise fun v v' => tr.keyOf v < tr.keyOf v') → xs.Nodup := by
    intro xs sorted
    refine sorted.imp fun {v v'} less same => ?_
    rw [same] at less
    exact lt_irrefl _ less
  have perm : vs.Perm us :=
    (List.perm_ext_iff_of_nodup (nodup vs ascending) (nodup us ascending')).mpr same
  exact perm.eq_of_pairwise (fun v v' _ _ less less' => absurd (less.trans less') (lt_irrefl _)) ascending
    ascending'

section Reading

variable [Header H] [HeaderSpec H] {tr : Traits K V n} {s : St H K V n} {e : Addr} {M : Contents n V}
  {own : Set Addr}

/-- The values of a list of keys. -/
def valuesAt (M : Contents n V) (ks : List (Key n)) : List V := ks.filterMap (values M)

/-- **Reading from the leaf of a stored key**, by induction on the keys beyond it. -/
theorem reads_spec (holds : Holds tr s e M own) (ks : List (Key n)) :
    ∀ {k : Key n} {it : Addr} {v : V}, M k = some (it, v) →
      Dir.up.Lists {u | u ∈ dom M ∧ Dir.up.before k u} ks → Reads tr s e it (v :: valuesAt M ks) := by
  induction ks with
  | nil =>
      intro k it v stored lists
      obtain ⟨-, -, notEnd, q, cell⟩ := holds.entry stored
      refine .cons notEnd (leafValue_ok cell) (advance_last holds stored fun u member side => ?_) .ended
      have inside : u ∈ {u | u ∈ dom M ∧ Dir.up.before k u} := ⟨member, side⟩
      rw [lists.eq_nil] at inside
      exact inside
  | cons x ks ih =>
      intro k it v stored lists
      obtain ⟨-, -, notEnd, q, cell⟩ := holds.entry stored
      have first := lists.isFirst
      rcases advance_spec holds stored .up with ⟨w, it₁, v₁, run, entry, nearest⟩ | ⟨none, -⟩
      · obtain rfl : w = x := nearest.unique first
        have beyond : {y | y ∈ {u | u ∈ dom M ∧ Dir.up.before k u} ∧ Dir.up.before w y}
            = {u | u ∈ dom M ∧ Dir.up.before w u} := by
          ext u
          refine ⟨fun inside => ⟨inside.1.1, inside.2⟩, fun inside => ⟨⟨inside.1, ?_⟩, inside.2⟩⟩
          exact Dir.before_trans first.1.2 inside.2
        have value : values M w = some v₁ := values_eq_some.mpr ⟨it₁, entry⟩
        rw [valuesAt, List.filterMap_cons_some value]
        exact .cons notEnd (leafValue_ok cell) run (ih entry (beyond ▸ lists.tail))
      · exact absurd first.1.2 (none x first.1.1)

/-- **Every container is read as the list of its values.** -/
theorem Holds.sequence (holds : Holds tr s e M own) : ∃ vs, Sequence tr s vs := by
  obtain ⟨ks, lists⟩ := Dir.exists_lists (Set.toFinite (dom M))
  have value : ∀ u ∈ ks, ∃ it v, M u = some (it, v) ∧ values M u = some v ∧ tr.keyOf v = u := by
    intro u listed
    obtain ⟨⟨it, v⟩, entry⟩ := exists_of_mem_dom ((lists.mem_iff u).mp listed)
    exact ⟨it, v, entry, values_eq_some.mpr ⟨it, entry⟩, (holds.entry entry).1⟩
  refine ⟨valuesAt M ks, ?_, fun v => ?_, ?_, ?_⟩
  · rcases beginIt_spec holds with ⟨rfl, run⟩ | ⟨w, it, v, run, entry, first⟩
    · have none : ks = [] := by
        rw [List.eq_nil_iff_forall_not_mem]
        intro x listed
        exact (lists.mem_iff x).mp listed rfl
      rw [none]
      exact ⟨e, e, run, endIt_spec holds, .ended⟩
    · cases ks with
      | nil => exact absurd ((lists.mem_iff w).mpr first.1) List.not_mem_nil
      | cons x ks =>
          obtain rfl : w = x := first.unique lists.isFirst
          refine ⟨it, e, run, endIt_spec holds, ?_⟩
          rw [valuesAt, List.filterMap_cons_some (values_eq_some.mpr ⟨it, entry⟩)]
          exact reads_spec holds ks entry lists.tail
  · rw [valuesAt, List.mem_filterMap]
    constructor
    · rintro ⟨u, -, some⟩
      obtain ⟨it, entry⟩ := values_eq_some.mp some
      exact ⟨it, (holds.stored_of_entry entry).1⟩
    · rintro ⟨it, stored⟩
      have entry := holds.stored_iff.mp stored
      exact ⟨_, (lists.mem_iff _).mpr (mem_dom_of_eq_some entry), values_eq_some.mpr ⟨it, entry⟩⟩
  · refine List.pairwise_filterMap.mpr (lists.sorted.imp_of_mem fun {u u'} listed listed' less => ?_)
    intro v some v' some'
    obtain ⟨it, v₁, -, same, key⟩ := value u listed
    obtain ⟨it', v₁', -, same', key'⟩ := value u' listed'
    cases some.symm.trans same
    cases some'.symm.trans same'
    rw [key, key']
    exact less
  · have all : ∀ us : List (Key n), (∀ u ∈ us, u ∈ ks) → (valuesAt M us).length = us.length := by
      intro us
      induction us with
      | nil => exact fun _ => rfl
      | cons u us ih =>
          intro inside
          obtain ⟨it, v, -, some, -⟩ := value u (inside u List.mem_cons_self)
          rw [valuesAt, List.filterMap_cons_some some, List.length_cons, List.length_cons]
          exact congrArg (· + 1) (ih fun u' later => inside u' (List.mem_cons_of_mem u later))
    rw [all ks fun _ listed => listed, lists.length_eq, holds.count, size]

end Reading

/-! ### Comparing pairs -/

section Pairs

variable [LinearOrder K] [LinearOrder T]

theorem pairEqual_eq (x y : K × T) : pairEqual x y = decide (x = y) := by
  rw [pairEqual, ← Bool.decide_and]
  exact decide_eq_decide.mpr Prod.ext_iff.symm

/-- `<` of pairs is their lexicographic order. -/
theorem pairLess_eq (x y : K × T) : pairLess x y = decide (toLex x < toLex y) := by
  rw [Bool.eq_iff_iff, decide_eq_true_iff, Prod.Lex.toLex_lt_toLex, pairLess]
  simp only [Bool.or_eq_true, decide_eq_true_eq, Bool.and_eq_true, Bool.not_eq_true',
    decide_eq_false_iff_not]
  constructor
  · rintro (less | ⟨notLess, less⟩)
    · exact .inl less
    · rcases lt_trichotomy x.1 y.1 with before | same | after
      · exact .inl before
      · exact .inr ⟨same, less⟩
      · exact absurd after notLess
  · rintro (less | ⟨same, less⟩)
    · exact .inl less
    · exact .inr ⟨same ▸ lt_irrefl _, less⟩

/-- The lexicographic order of lists of pairs. -/
def listLess (vs us : List (K × T)) : Prop := vs.map toLex < us.map toLex

instance (vs us : List (K × T)) : Decidable (listLess vs us) :=
  inferInstanceAs (Decidable (vs.map toLex < us.map toLex))

theorem listLess_nil (vs : List (K × T)) : ¬ listLess vs [] := List.not_lt_nil _

theorem nil_listLess (u : K × T) (us : List (K × T)) : listLess [] (u :: us) := List.nil_lt_cons _ _

theorem cons_listLess {v u : K × T} {vs us : List (K × T)} :
    listLess (v :: vs) (u :: us) ↔ toLex v < toLex u ∨ (v = u ∧ listLess vs us) := by
  unfold listLess
  rw [List.map_cons, List.map_cons, List.cons_lt_cons_iff]
  exact Iff.rfl

end Pairs

/-! ### The loops -/

section Loops

variable [Variant H] [LinearOrder K] [LinearOrder T] {tr : Traits K (K × T) n}
  {mem : Memory (Cell H (K × T))} {lhs rhs : Tree K n} {last1 last2 : Addr}

omit [Variant H] [LinearOrder K] [LinearOrder T] in
/-- A call that changes nothing. -/
theorem onTree_ok {α : Type} {tree : Tree K n} {call : Run H K (K × T) n α} {answer : α}
    (run : call ⟨mem, tree⟩ = .ok answer ⟨mem, tree⟩) : onTree tree call mem = .ok answer mem := by
  unfold onTree
  rw [run]

/-- **`std::equal`** compares what is read, by induction on the values of the first range. -/
theorem stdEqual_spec {first1 : Addr} {vs : List (K × T)}
    (reads : Reads tr ⟨mem, lhs⟩ last1 first1 vs) :
    ∀ {first2 : Addr} {us : List (K × T)}, Reads tr ⟨mem, rhs⟩ last2 first2 us →
      us.length = vs.length → ∀ rounds, vs.length < rounds →
        stdEqual tr lhs rhs rounds first1 last1 first2 mem = .ok (decide (vs = us)) mem := by
  induction reads with
  | ended =>
      intro first2 us reads' lengths rounds enough
      obtain ⟨rounds, rfl⟩ : ∃ more, rounds = more + 1 := ⟨rounds - 1, by omega⟩
      obtain rfl := List.length_eq_zero_iff.mp lengths
      rw [stdEqual, if_pos rfl]
      rfl
  | @cons it next v vs differ value run rest ih =>
      intro first2 us reads' lengths rounds enough
      obtain ⟨rounds, rfl⟩ : ∃ more, rounds = more + 1 := ⟨rounds - 1, by omega⟩
      cases reads' with
      | ended => cases lengths
      | @cons it' next' u us differ' value' run' rest' =>
          rw [stdEqual, if_neg differ, Exec.bind_of_ok (onTree_ok value), Exec.bind_of_ok (onTree_ok value'),
            pairEqual_eq]
          by_cases same : v = u
          · rw [if_pos (decide_eq_true same), Exec.bind_of_ok (onTree_ok run),
              Exec.bind_of_ok (onTree_ok run'), ih rest' (Nat.succ.inj lengths) rounds
              (Nat.lt_of_succ_lt_succ enough)]
            simp [same]
          · rw [if_neg (by simp [same])]
            simp [same]

/-- **`std::lexicographical_compare`** is the lexicographic order of what is read. -/
theorem lexicographicalCompare_spec {first1 : Addr} {vs : List (K × T)}
    (reads : Reads tr ⟨mem, lhs⟩ last1 first1 vs) :
    ∀ {first2 : Addr} {us : List (K × T)}, Reads tr ⟨mem, rhs⟩ last2 first2 us →
      ∀ rounds, vs.length < rounds →
        lexicographicalCompare tr lhs rhs rounds first1 last1 first2 last2 mem
          = .ok (decide (listLess vs us)) mem := by
  induction reads with
  | ended =>
      intro first2 us reads' rounds enough
      obtain ⟨rounds, rfl⟩ : ∃ more, rounds = more + 1 := ⟨rounds - 1, by omega⟩
      rw [lexicographicalCompare, if_neg fun both => both.1 rfl]
      cases reads' with
      | ended => simp [listLess_nil]
      | cons differ' => simp [differ', nil_listLess]
  | @cons it next v vs differ value run rest ih =>
      intro first2 us reads' rounds enough
      obtain ⟨rounds, rfl⟩ : ∃ more, rounds = more + 1 := ⟨rounds - 1, by omega⟩
      rw [lexicographicalCompare]
      cases reads' with
      | ended =>
          rw [if_neg fun both => both.2 rfl]
          simp [differ, listLess_nil]
      | @cons it' next' u us differ' value' run' rest' =>
          rw [if_pos ⟨differ, differ'⟩, Exec.bind_of_ok (onTree_ok value),
            Exec.bind_of_ok (onTree_ok value'), pairLess_eq, pairLess_eq]
          simp only [cons_listLess]
          rcases lt_trichotomy (toLex v) (toLex u) with before | same | after
          · rw [if_pos (decide_eq_true before)]
            simp [before]
          · obtain rfl : v = u := same
            rw [if_neg (by simp), if_neg (by simp), Exec.bind_of_ok (onTree_ok run),
              Exec.bind_of_ok (onTree_ok run'), ih rest' rounds (Nat.lt_of_succ_lt_succ enough)]
            simp
          · have differs : v ≠ u := fun same => after.ne (congrArg toLex same.symm)
            rw [if_neg (by simp [after.le]), if_pos (decide_eq_true after)]
            simp [after.le, differs]

end Loops

/-! ### The operators -/

/-- **An operator returns this answer**, given enough rounds. -/
def Returns (op : ℕ → Query H V Bool) (mem : Memory (Cell H V)) (answer : Bool) : Prop :=
  ∃ bound, ∀ rounds, bound < rounds → op rounds mem = .ok answer mem

theorem Returns.unique {op : ℕ → Query H V Bool} {mem : Memory (Cell H V)} {answer answer' : Bool}
    (one : Returns op mem answer) (two : Returns op mem answer') : answer = answer' := by
  obtain ⟨bound, run⟩ := one
  obtain ⟨bound', run'⟩ := two
  have same := (run (bound + bound' + 1) (by omega)).symm.trans (run' (bound + bound' + 1) (by omega))
  cases same
  rfl

/-- The negation of an answer. -/
theorem Returns.not {op : ℕ → Query H V Bool} {mem : Memory (Cell H V)} {answer : Bool}
    (returns : Returns op mem answer) :
    Returns (fun rounds => do let answer ← op rounds; pure !answer) mem (!answer) := by
  obtain ⟨bound, run⟩ := returns
  exact ⟨bound, fun rounds more => Exec.bind_of_ok (run rounds more) _⟩

/-- **What the operators return on two containers**: the answers of `==`, `<` and `>`. -/
structure Contrasted [Variant H] [LinearOrder K] [LinearOrder T] (tr : Traits K (K × T) n)
    (mem : Memory (Cell H (K × T))) (lhs rhs : Tree K n) (equal less greater : Bool) : Prop where
  eq : Returns (operatorEq tr lhs rhs) mem equal
  lt : Returns (operatorLt tr lhs rhs) mem less
  swapped : Returns (operatorLt tr rhs lhs) mem greater
  contents : equal = true ↔
    ∀ p, (∃ it, Stored ⟨mem, lhs⟩ it p) ↔ ∃ it, Stored ⟨mem, rhs⟩ it p
  one : (less, equal, greater) ∈ [(true, false, false), (false, true, false), (false, false, true)]
  ne : Returns (operatorNe tr lhs rhs) mem !equal
  gt : Returns (operatorGt tr lhs rhs) mem greater
  le : Returns (operatorLe tr lhs rhs) mem !greater
  ge : Returns (operatorGe tr lhs rhs) mem !less

section Operators

variable [Variant H] [LinearOrder K] [LinearOrder T] {tr : Traits K (K × T) n}
  {mem : Memory (Cell H (K × T))} {lhs rhs : Tree K n} {vs us : List (K × T)}

/-- **`==`** is equality of what is read. -/
theorem operatorEq_spec (left : Sequence tr ⟨mem, lhs⟩ vs) (right : Sequence tr ⟨mem, rhs⟩ us) :
    Returns (operatorEq tr lhs rhs) mem (decide (vs = us)) := by
  obtain ⟨first1, last1, begin1, end1, reads1⟩ := left.begins
  obtain ⟨first2, last2, begin2, -, reads2⟩ := right.begins
  have length1 : vs.length = lhs.count := left.length
  have length2 : us.length = rhs.count := right.length
  refine ⟨vs.length, fun rounds more => ?_⟩
  unfold operatorEq
  by_cases sizes : lhs.count = rhs.count
  · rw [if_pos sizes, Exec.bind_of_ok (onTree_ok begin1), Exec.bind_of_ok (onTree_ok end1),
      Exec.bind_of_ok (onTree_ok begin2)]
    exact stdEqual_spec reads1 reads2 (by omega) rounds more
  · have differ : vs ≠ us := fun same => sizes (by rw [← length1, ← length2, same])
    rw [if_neg sizes, decide_eq_false differ]
    rfl

/-- **`<`** is the lexicographic order of what is read. -/
theorem operatorLt_spec (left : Sequence tr ⟨mem, lhs⟩ vs) (right : Sequence tr ⟨mem, rhs⟩ us) :
    Returns (operatorLt tr lhs rhs) mem (decide (listLess vs us)) := by
  obtain ⟨first1, last1, begin1, end1, reads1⟩ := left.begins
  obtain ⟨first2, last2, begin2, end2, reads2⟩ := right.begins
  refine ⟨vs.length, fun rounds more => ?_⟩
  unfold operatorLt
  rw [Exec.bind_of_ok (onTree_ok begin1), Exec.bind_of_ok (onTree_ok end1),
    Exec.bind_of_ok (onTree_ok begin2), Exec.bind_of_ok (onTree_ok end2)]
  exact lexicographicalCompare_spec reads1 reads2 rounds more

omit [LinearOrder K] [LinearOrder T] in
theorem map_toLex_injective : Function.Injective (List.map (toLex : K × T → K ×ₗ T)) :=
  List.map_injective_iff.mpr toLex.injective

/-- **The operators on two containers** that are read as lists. -/
theorem contrasted (left : Sequence tr ⟨mem, lhs⟩ vs) (right : Sequence tr ⟨mem, rhs⟩ us) :
    Contrasted tr mem lhs rhs (decide (vs = us)) (decide (listLess vs us)) (decide (listLess us vs)) where
  eq := operatorEq_spec left right
  lt := operatorLt_spec left right
  swapped := operatorLt_spec right left
  contents := by
    rw [decide_eq_true_iff]
    constructor
    · rintro rfl p
      rw [← left.members, ← right.members]
    · intro same
      refine eq_of_members left.ascending right.ascending fun v => ?_
      rw [left.members, right.members]
      exact same v
  one := by
    rcases lt_trichotomy (vs.map toLex) (us.map toLex) with less | same | more
    · have differ : vs ≠ us := fun same => less.ne (congrArg _ same)
      simp [listLess, less, less.not_gt, differ]
    · obtain rfl := map_toLex_injective same
      simp [listLess]
    · have differ : vs ≠ us := fun same => more.ne (congrArg _ same.symm)
      simp [listLess, more, more.not_gt, differ]
  ne := (operatorEq_spec left right).not
  gt := operatorLt_spec right left
  le := (operatorLt_spec right left).not
  ge := (operatorLt_spec left right).not

/-- **`<` is transitive.** -/
theorem operatorLt_trans {third : Tree K n} {ws : List (K × T)} (left : Sequence tr ⟨mem, lhs⟩ vs)
    (right : Sequence tr ⟨mem, rhs⟩ us) (last : Sequence tr ⟨mem, third⟩ ws)
    (one : Returns (operatorLt tr lhs rhs) mem true) (two : Returns (operatorLt tr rhs third) mem true) :
    Returns (operatorLt tr lhs third) mem true := by
  have less := of_decide_eq_true ((operatorLt_spec left right).unique one)
  have less' := of_decide_eq_true ((operatorLt_spec right last).unique two)
  have both : listLess vs ws := lt_trans less less'
  have answer := operatorLt_spec left last
  rwa [decide_eq_true both] at answer

variable [HeaderSpec H] [LawfulVariant H] {w : World H K (K × T) n}

/-- **The operators on the containers of a world.** -/
theorem World.Reaches.operators (admits : Admits H n)
    (reaches : World.Reaches tr (fun _ op => op.Plain) w) :
    (∀ i j a b, w.trees i = some a → w.trees j = some b →
      ∃ equal less greater, Contrasted tr w.mem a b equal less greater) ∧
    ∀ i j k a b c, w.trees i = some a → w.trees j = some b → w.trees k = some c →
      Returns (operatorLt tr a b) w.mem true → Returns (operatorLt tr b c) w.mem true →
        Returns (operatorLt tr a c) w.mem true := by
  obtain ⟨part, holding⟩ := reaches.holding admits
  constructor
  · intro i j a b left right
    obtain ⟨vs, sequence⟩ := (holding.holds left).sequence
    obtain ⟨us, sequence'⟩ := (holding.holds right).sequence
    exact ⟨_, _, _, contrasted sequence sequence'⟩
  · intro i j k a b c first second third
    obtain ⟨vs, sequence⟩ := (holding.holds first).sequence
    obtain ⟨us, sequence'⟩ := (holding.holds second).sequence
    obtain ⟨ws, sequence''⟩ := (holding.holds third).sequence
    exact operatorLt_trans sequence sequence' sequence''

end Operators

/-- **The relational operators compare contents**, in `ar_tree`, and in `ar_prefix_tree` for keys whose
prefix lengths fit `_prefix_length`. -/
theorem relational_operators :
    (∀ {K T : Type} {n : ℕ} [LinearOrder K] [LinearOrder T] (keyTransform : K → Key n) (defaultKey : K)
      (w : World DepthHeader K (K × T) n),
      World.Reaches (Traits.map keyTransform defaultKey) (fun _ op => op.Plain) w →
        (∀ i j a b, w.trees i = some a → w.trees j = some b → ∃ equal less greater,
          Contrasted (Traits.map keyTransform defaultKey) w.mem a b equal less greater) ∧
        ∀ i j k a b c, w.trees i = some a → w.trees j = some b → w.trees k = some c →
          Returns (operatorLt (Traits.map keyTransform defaultKey) a b) w.mem true →
          Returns (operatorLt (Traits.map keyTransform defaultKey) b c) w.mem true →
            Returns (operatorLt (Traits.map keyTransform defaultKey) a c) w.mem true) ∧
    ∀ {K T : Type} {n : ℕ} [LinearOrder K] [LinearOrder T] (keyTransform : K → Key n) (defaultKey : K)
      (w : World PrefixHeader K (K × T) n), n ≤ 65536 →
      World.Reaches (Traits.map keyTransform defaultKey) (fun _ op => op.Plain) w →
        (∀ i j a b, w.trees i = some a → w.trees j = some b → ∃ equal less greater,
          Contrasted (Traits.map keyTransform defaultKey) w.mem a b equal less greater) ∧
        ∀ i j k a b c, w.trees i = some a → w.trees j = some b → w.trees k = some c →
          Returns (operatorLt (Traits.map keyTransform defaultKey) a b) w.mem true →
          Returns (operatorLt (Traits.map keyTransform defaultKey) b c) w.mem true →
            Returns (operatorLt (Traits.map keyTransform defaultKey) a c) w.mem true :=
  ⟨fun _ _ _ reaches => reaches.operators trivial, fun _ _ _ fits reaches => reaches.operators fits⟩

/-- Two maps with the key `1`, in either container. -/
theorem relational_operators_pair :
    (∃ (w : World DepthHeader Byte (Byte × ℕ) 1) (a b : Tree Byte 1) (equal less greater : Bool),
      w.trees 0 = some a ∧ w.trees 1 = some b ∧
      Contrasted (Traits.map (fun k => ⟨#v[k]⟩) 0) w.mem a b equal less greater) ∧
    ∃ (w : World PrefixHeader Byte (Byte × ℕ) 1) (a b : Tree Byte 1) (equal less greater : Bool),
      w.trees 0 = some a ∧ w.trees 1 = some b ∧
      Contrasted (Traits.map (fun k => ⟨#v[k]⟩) 0) w.mem a b equal less greater := by
  have fits : 1 ≤ 65536 := by decide
  obtain ⟨w, a, b, reaches, first, second⟩ := World.exists_two (H := DepthHeader) trivial
    (Traits.map (fun k : Byte => (⟨#v[k]⟩ : Key 1)) 0) ((1, 5) : Byte × ℕ) (1, 6)
  obtain ⟨w', a', b', reaches', first', second'⟩ := World.exists_two (H := PrefixHeader) fits
    (Traits.map (fun k : Byte => (⟨#v[k]⟩ : Key 1)) 0) ((1, 5) : Byte × ℕ) (1, 6)
  obtain ⟨equal, less, greater, answers⟩ :=
    (relational_operators.1 _ _ w reaches).1 0 1 a b first second
  obtain ⟨equal', less', greater', answers'⟩ :=
    (relational_operators.2 _ _ w' fits reaches').1 0 1 a' b' first' second'
  exact ⟨⟨w, a, b, equal, less, greater, first, second, answers⟩,
    w', a', b', equal', less', greater', first', second', answers'⟩

/-! ### Keys of more than 65536 bytes -/

/-- Where `++` stays at an element, `std::equal` of a container with itself goes on for ever. -/
theorem stdEqual_stuck [Variant H] [LinearOrder K] [LinearOrder T] {tr : Traits K (K × T) n}
    {mem : Memory (Cell H (K × T))} {tree : Tree K n} {it last : Addr} {v : K × T} (differ : it ≠ last)
    (value : leafValue it ⟨mem, tree⟩ = .ok v ⟨mem, tree⟩)
    (stuck : increment tr it ⟨mem, tree⟩ = .ok it ⟨mem, tree⟩) :
    ∀ rounds, stdEqual tr tree tree rounds it last it mem = .error .recursion mem
  | 0 => rfl
  | rounds + 1 => by
      rw [stdEqual, if_neg differ, Exec.bind_of_ok (onTree_ok value), Exec.bind_of_ok (onTree_ok value),
        pairEqual_eq, if_pos (decide_eq_true rfl), Exec.bind_of_ok (onTree_ok stuck),
        Exec.bind_of_ok (onTree_ok stuck)]
      exact stdEqual_stuck differ value stuck rounds

/-- **A map of two keys of 65537 bytes** that differ in the last one: `==` of the map with itself never
returns. -/
theorem relational_operators_stuck :
    ∃ (w : World PrefixHeader (Key 65537) (Key 65537 × ℕ) 65537) (a : Tree (Key 65537) 65537),
      World.Reaches (Traits.map id (longKey 0)) (fun _ op => op.Plain) w ∧ w.trees 0 = some a ∧
      ¬ ∃ answer, Returns (operatorEq (Traits.map id (longKey 0)) a a) w.mem answer := by
  have less : (longKey 1).letter 65536 < (longKey 2).letter 65536 := longKey_letter_lt (by decide)
  obtain ⟨s₀, s₁, s, node, it, it', l, founded, run, run', misplaced⟩ :=
    ArPrefixTree.exists_misplaced_runs (Traits.map id (longKey 0))
      (x := ((longKey 1, 0) : Key 65537 × ℕ)) (y := (longKey 2, 0)) (by omega) (longKey_agree 2 1) less
  let w₀ : World PrefixHeader (Key 65537) (Key 65537 × ℕ) 65537 := World.blank.put 0 s₀
  let w₁ : World PrefixHeader (Key 65537) (Key 65537 × ℕ) 65537 := w₀.put 0 s₁
  have first : w₀.trees 0 = some s₀.tree := World.put_self _ _ _
  have second : w₁.trees 0 = some s₁.tree := World.put_self _ _ _
  have legal : ∀ (s : ArPrefixTree.State (Key 65537) (Key 65537 × ℕ) 65537) (z : Key 65537 × ℕ),
      (Call.insert z : Call (Key 65537) (Key 65537 × ℕ)).Legal s := fun _ _ => trivial
  have reaches : World.Reaches (Traits.map id (longKey 0)) (fun _ op => op.Plain) (w₁.put 0 s) :=
    ((World.Reaches.construct .blank rfl founded).call first (legal _ _) (Exec.bind_of_ok run _)).call
      second (legal _ _) (Exec.bind_of_ok run' _)
  refine ⟨w₁.put 0 s, s.tree, reaches, World.put_self _ _ _, fun found => ?_⟩
  obtain ⟨answer, bound, returns⟩ := found
  obtain ⟨e, ended, differ⟩ := misplaced.finish
  have stuck := misplaced.increment (by omega) (longKey_below (by decide)) less
  have looping : operatorEq (Traits.map id (longKey 0)) s.tree s.tree (bound + 1) s.mem
      = .error .recursion s.mem := by
    unfold operatorEq
    rw [if_pos rfl, Exec.bind_of_ok (onTree_ok (misplaced.begin less)), Exec.bind_of_ok (onTree_ok ended),
      Exec.bind_of_ok (onTree_ok (misplaced.begin less))]
    exact stdEqual_stuck differ.symm (leafValue_ok misplaced.first) stuck (bound + 1)
  have answered : operatorEq (Traits.map id (longKey 0)) s.tree s.tree (bound + 1) s.mem
      = .ok answer s.mem := returns (bound + 1) (Nat.lt_succ_self bound)
  rw [looping] at answered
  cases answered

end CppArt
