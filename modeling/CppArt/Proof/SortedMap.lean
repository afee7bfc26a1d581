/-
**A `radix_map` is a sorted map of its keys.**

The transformed keys spell the keys, so the table of bytes that a container refines spells a map of keys.

* `MapCall.Does.spelled`: a call on the map of keys is the call on the table;
* `KeyHistory.spelled`: and so after every history, by induction;
* `Spells.says`, `Iterates.sorted`: what is returned, and in which order the keys are visited;
* `radix_map_sorted`.
-/

import CppArt.Model.SortedMap
import CppArt.Proof.Interface
import CppArt.Proof.KeyTransform
import CppArt.Proof.StringKey
import CppArt.Proof.ValueCompare

namespace CppArt

open Table

variable {H K T : Type} {n : ℕ}

/-- **A container behaves as a sorted map** under the calls that compile. -/
structure ActsAs [Variant H] [DecidableEq K] (tr : Traits K (K × T) n) (less : K → K → Prop)
    (mapped : T) (compiles : MapCall K T → Prop) (s : St H K (K × T) n) (f : KeyMap K T) : Prop where
  size : s.tree.count = {k | f k ≠ none}.ncard
  find : ∀ k, ∃ it, find tr k s = .ok it s ∧
    ((∃ t, f k = some t ∧ Stored s it (k, t)) ∨ (f k = none ∧ IsEnd s it))
  visits : ∃ its entries, Iterates tr s its ∧ List.Forall₂ (Stored s) its entries ∧
    entries.Pairwise (fun x y => less x.1 y.1) ∧ ∀ k t, (k, t) ∈ entries ↔ f k = some t
  perform : ∀ (c : MapCall K T) f', compiles c → c.Does mapped s f f' →
    ∃ answer s', performMap tr mapped c s = .ok answer s' ∧ c.Says less mapped s s' f answer

/-! ### Calls -/

section Calls

variable [DecidableEq K] {word : K → Key n} {defaultKey : K} {f : KeyMap K T}
variable {m : Table Byte n (K × T)}

/-- A new key is inserted. -/
theorem Spells.putNew (injective : Function.Injective word) (spells : Spells word f m) (entry : K × T) :
    Spells word (f.insert entry) (m.putNew (word entry.1) entry) := by
  rw [KeyMap.insert, Table.putNew]
  by_cases absent : f entry.1 = none
  · rw [if_pos absent, if_pos ((spells.apply_eq_none injective _).mpr absent)]
    exact spells.put injective entry.1 entry.2
  · rw [if_neg absent, if_neg fun none => absent ((spells.apply_eq_none injective _).mp none)]
    exact spells

/-- The values of a list are inserted. -/
theorem Spells.foldl (injective : Function.Injective word) (xs : List (K × T)) :
    ∀ {f : KeyMap K T} {m : Table Byte n (K × T)}, Spells word f m → Spells word (xs.foldl KeyMap.insert f)
      (xs.foldl (fun m x => m.putNew ((Traits.map (T := T) word defaultKey).keyOf x) x) m) := by
  induction xs with
  | nil => exact fun spells => spells
  | cons x xs ih => exact fun spells => ih (spells.putNew injective x)

/-- The mapped value of a key is set. -/
theorem Spells.assignMapped (injective : Function.Injective word) (spells : Spells word f m) (k : K)
    (t : T) : Spells word (Function.update f k (some t)) (m.assignMapped (word k) k t) := by
  have key : (m (word k)).elim k Prod.fst = k := by
    rw [spells.apply injective]
    cases f k <;> rfl
  rw [Table.assignMapped, key]
  exact spells.put injective k t

/-- **A call on the map of keys** is the call on the table. -/
theorem MapCall.Does.spelled (injective : Function.Injective word) {mapped : T} {s : St H K (K × T) n}
    {c : MapCall K T} {f' : KeyMap K T} (spells : Spells word f m) (does : c.Does mapped s f f') :
    ∃ m', c.Effect (Traits.map word defaultKey) mapped s m m' ∧ Spells word f' m' := by
  cases does with
  | insert entry => exact ⟨_, .tree (.insert entry), spells.putNew injective entry⟩
  | emplace entry => exact ⟨_, .tree (.emplace entry), spells.putNew injective entry⟩
  | erase k => exact ⟨_, .tree (.erase k), spells.drop injective k⟩
  | eraseAt it k t stored => exact ⟨_, .tree (.eraseAt it _ stored), spells.drop injective k⟩
  | clear => exact ⟨_, .tree .clear, Spells.empty word⟩
  | insertRange xs => exact ⟨_, .insertRange xs, Spells.foldl injective xs spells⟩
  | assignList xs => exact ⟨_, .assignList xs, Spells.foldl injective xs (Spells.empty word)⟩
  | subscript k => exact ⟨_, .subscript k, spells.putNew injective (k, mapped)⟩
  | assign k t => exact ⟨_, .assign k t, spells.assignMapped injective k t⟩
  | readAt k => exact ⟨_, .readAt k, spells⟩
  | writeAt k t =>
      refine ⟨_, .writeAt k t, ?_⟩
      rw [show (Traits.map (T := T) word defaultKey).defaultTransform k = word k from rfl,
        spells.apply injective k]
      rcases value : f k with _ | t'
      · rw [if_pos rfl]
        exact spells
      · rw [if_neg (Option.some_ne_none t')]
        exact spells.assignMapped injective k t
  | setMapped it k t t' stored => exact ⟨_, .setMapped it t' _ stored, spells.put injective k t'⟩
  | count k => exact ⟨_, .count k, spells⟩

/-- **After every history** the table of bytes spells the map of keys. -/
theorem KeyHistory.spelled [Variant H] (injective : Function.Injective word) {mapped : T}
    {compiles : MapCall K T → Prop} {s : St H K (K × T) n}
    (history : KeyHistory (Traits.map word defaultKey) mapped compiles s f) :
    ∃ m, MapHistory (Traits.map word defaultKey) mapped s m ∧ Spells word f m := by
  induction history with
  | start calm run => exact ⟨Table.empty, .start calm run, Spells.empty word⟩
  | call history _ does run ih =>
      obtain ⟨m, before, spells⟩ := ih
      obtain ⟨m', effect, spells'⟩ := does.spelled injective spells
      exact ⟨m', before.call effect run, spells'⟩

/-! ### Answers -/

omit [DecidableEq K] in
/-- The iterator to the least word above that of a key points to the key that follows. -/
theorem succeeds_of_pointsTo {less : K → K → Prop} (spelling : Spelling less word)
    (spells : Spells word f m) {s : St H K (K × T) n} {k : K} {it : Addr}
    (points : PointsTo (Traits.map word defaultKey) s {u | u ∈ dom m ∧ word k < u} it) :
    Succeeds less s f k it := by
  have inside : ∀ w, f w ≠ none → less k w → word w ∈ {u | u ∈ dom m ∧ word k < u} := by
    intro w present above
    refine ⟨fun absent => present ?_, (spelling.lt_iff k w).mpr above⟩
    exact (spells.apply_eq_none spelling.injective w).mp absent
  rcases points with ⟨⟨u, t⟩, stored, least⟩ | ⟨none, ends⟩
  · refine .inl ⟨u, t, stored, (spelling.lt_iff k u).mp least.1.2, fun w present above => ?_⟩
    rcases (least.2 (inside w present above)).eq_or_lt with same | less'
    · exact .inl (spelling.injective same).symm
    · exact .inr ((spelling.lt_iff u w).mp less')
  · refine .inr ⟨fun w present above => ?_, ends⟩
    have member := inside w present above
    rw [none] at member
    exact member

omit [DecidableEq K] in
/-- **What the table of bytes returns** is what the map of keys returns. -/
theorem MapCall.Answered.says {less : K → K → Prop} (spelling : Spelling less word)
    (spells : Spells word f m) {mapped : T} {s s' : St H K (K × T) n} {c : MapCall K T}
    {answer : MapAnswer T} (answered : c.Answered (Traits.map word defaultKey) mapped s s' m answer) :
    c.Says less mapped s s' f answer := by
  have entry := spells.apply spelling.injective
  have absent := spells.apply_eq_none spelling.injective
  have counted : ∀ k, (if m (word k) = none then 0 else 1) = if f k = none then 0 else 1 :=
    fun k => if_congr (absent k) rfl rfl
  cases answered with
  | tree answered =>
      cases answered with
      | insert x v it fresh stored key new =>
          obtain ⟨k, t⟩ := v
          obtain rfl : k = x.1 := spelling.injective key
          exact .insert x.1 x.2 t it fresh stored (new.trans (absent x.1))
      | emplace x v it fresh stored key new =>
          obtain ⟨k, t⟩ := v
          obtain rfl : k = x.1 := spelling.injective key
          exact .emplace x.1 x.2 t it fresh stored (new.trans (absent x.1))
      | erase k =>
          show MapCall.Says less mapped s s' f _ (.tree (.erased (if m (word k) = none then 0 else 1)))
          rw [counted k]
          exact .erase k
      | eraseAt it next v stored points =>
          exact .eraseAt it next v.1 v.2 stored (succeeds_of_pointsTo spelling spells points)
      | clear => exact .clear
  | insertRange xs => exact .insertRange xs
  | assignList xs => exact .assignList xs
  | subscript k =>
      show MapCall.Says less mapped s s' f _ (.mapped ((m (word k)).elim mapped Prod.snd))
      rw [entry k, show ((f k).map fun x => (k, x)).elim mapped Prod.snd = (f k).getD mapped by
        cases f k <;> rfl]
      exact .subscript k
  | assign k t => exact .assign k t
  | readAt k =>
      show MapCall.Says less mapped s s' f _
        ((m (word k)).elim (.outOfRange "radix_map::at") fun x => .mapped x.2)
      rw [entry k, Option.elim_map]
      exact .readAt k
  | writeAt k t =>
      show MapCall.Says less mapped s s' f _
        ((m (word k)).elim (.outOfRange "radix_map::at") fun _ => .done)
      rw [entry k, Option.elim_map]
      exact .writeAt k t
  | setMapped it t => exact .setMapped it t
  | count k =>
      show MapCall.Says less mapped s s' f _ (.count (if m (word k) = none then 0 else 1))
      rw [counted k]
      exact .count k

end Calls

/-! ### Iteration -/

/-- **The elements are visited in their own order**, which is that of their transformed keys. -/
theorem Iterates.sorted [Header H] {V : Type} {tr : Traits K V n} {below : V → V → Prop}
    (ordered : ∀ v v', tr.keyOf v < tr.keyOf v' → below v v') {s : St H K V n} {elements : V → Prop}
    {its : List Addr} (stored : ∀ v, elements v ↔ ∃ it, Stored s it v) (iterates : Iterates tr s its) :
    ∃ entries, List.Forall₂ (Stored s) its entries ∧ entries.Pairwise below ∧
      ∀ v, v ∈ entries ↔ elements v := by
  choose value leaf using fun it : {it // it ∈ its} => (iterates.complete it.1).mp it.2
  refine ⟨its.attach.map value, ?_, ?_, fun v => ?_⟩
  · have pairs : List.Forall₂ (Stored s) (its.attach.map Subtype.val) (its.attach.map value) := by
      rw [List.forall₂_map_left_iff, List.forall₂_map_right_iff, List.forall₂_same]
      exact fun it _ => leaf it
    rwa [List.attach_map_subtype_val] at pairs
  · have ascending := iterates.ascending
    rw [← List.attach_map_subtype_val its, List.pairwise_map] at ascending
    rw [List.pairwise_map]
    refine ascending.imp fun {it it'} before => ?_
    exact ordered _ _ (before (value it) (value it') (leaf it) (leaf it'))
  · rw [stored, List.mem_map]
    constructor
    · rintro ⟨it, -, same⟩
      exact ⟨it.1, same ▸ leaf it⟩
    · rintro ⟨it, element⟩
      have listed : it ∈ its := (iterates.complete it).mpr ⟨v, element⟩
      exact ⟨⟨it, listed⟩, List.mem_attach its _, (leaf ⟨it, listed⟩).value_eq element⟩

/-! ### Sorted maps -/

section Histories

variable [Variant H] [HeaderSpec H] [LawfulVariant H] [DecidableEq K] {word : K → Key n} {defaultKey : K}

/-- **After every history the container is a sorted map**, for any transformed keys that spell the keys. -/
theorem KeyHistory.actsAs {less : K → K → Prop} (spelling : Spelling less word) (admits : Admits H n)
    {mapped : T} {compiles : MapCall K T → Prop} {s : St H K (K × T) n} {f : KeyMap K T}
    (history : KeyHistory (Traits.map word defaultKey) mapped compiles s f) :
    ActsAs (Traits.map word defaultKey) less mapped compiles s f := by
  obtain ⟨m, bytes, spells⟩ := history.spelled spelling.injective
  have refines := bytes.refines rfl admits
  obtain ⟨e, M, own, holds, rfl⟩ := bytes.holds rfl admits
  have elements : ∀ k t, f k = some t ↔ ∃ it, Stored s it (k, t) := by
    intro k t
    have entry := refines.represents.entries (word k) (k, t)
    rw [spells, and_iff_right rfl] at entry
    exact entry.trans (exists_congr fun it => and_iff_left rfl)
  refine ⟨refines.size.trans (spells.size_eq spelling.injective), fun k => ?_, ?_, fun c f' _ does => ?_⟩
  · refine ⟨_, find_spec holds k, ?_⟩
    have value := spells.apply spelling.injective k
    rcases entry : M (word k) with _ | ⟨it, u, t⟩
    · rw [values_eq_none.mpr entry, eq_comm, Option.map_eq_none_iff] at value
      rw [show M ((Traits.map (T := T) word defaultKey).defaultTransform k) = none from entry]
      exact .inr ⟨value, holds.isEnd_iff.mpr rfl⟩
    · rw [show M ((Traits.map (T := T) word defaultKey).defaultTransform k) = _ from entry]
      rw [values_eq_some.mpr ⟨it, entry⟩, eq_comm, Option.map_eq_some_iff] at value
      obtain ⟨t', value, same⟩ := value
      cases same
      exact .inl ⟨t, value, (holds.stored_of_entry entry).1⟩
  · obtain ⟨its, iterates⟩ := refines.iterates
    have ordered : ∀ x y : K × T, (Traits.map word defaultKey).keyOf x
        < (Traits.map word defaultKey).keyOf y → less x.1 y.1 := fun _ _ => (spelling.lt_iff _ _).mp
    obtain ⟨entries, pairs, sorted, complete⟩ := iterates.sorted ordered
      fun x : K × T => elements x.1 x.2
    exact ⟨its, entries, iterates, pairs, sorted, fun k t => complete (k, t)⟩
  · obtain ⟨m', effect, -⟩ : ∃ m', c.Effect (Traits.map word defaultKey) mapped s (values M) m' ∧
        Spells word f' m' := does.spelled spelling.injective spells
    obtain ⟨answer, s', run, answered⟩ := refines.perform c m' effect
    exact ⟨answer, s', run, answered.says spelling spells⟩

/-- A user writes to two keys of an empty map. -/
theorem exists_keyHistory {less : K → K → Prop} (spelling : Spelling less word) (defaultKey : K)
    (admits : Admits H n) (mapped : T) (compiles : MapCall K T → Prop)
    (possible : ∀ k t, compiles (.assign k t)) {k k' : K} (differ : k ≠ k') (t t' : T) :
    ∃ (s : St H K (K × T) n) (f : KeyMap K T),
      KeyHistory (Traits.map word defaultKey) mapped compiles s f ∧ f k = some t ∧ f k' = some t' := by
  obtain ⟨s₀, run₀, -⟩ := init_spec (H := H) (Traits.map (T := T) word defaultKey)
    (rfl : Memory.blank.failAt = none) (Tree.uninitialised word) rfl
  have history₀ : KeyHistory (Traits.map word defaultKey) mapped compiles s₀ fun _ => none :=
    .start rfl run₀
  have does₁ : MapCall.Does mapped s₀ (fun _ => none) (.assign k t) _ := .assign k t
  obtain ⟨answer₁, s₁, run₁, -⟩ := (history₀.actsAs spelling admits).perform _ _ (possible k t) does₁
  have history₁ := history₀.call (possible k t) does₁ run₁
  have does₂ : MapCall.Does mapped s₁ (Function.update (fun _ => none) k (some t)) (.assign k' t') _ :=
    .assign k' t'
  obtain ⟨answer₂, s₂, run₂, -⟩ := (history₁.actsAs spelling admits).perform _ _ (possible k' t') does₂
  refine ⟨s₂, _, history₁.call (possible k' t') does₂ run₂, ?_, Function.update_self ..⟩
  rw [Function.update_of_ne differ, Function.update_self]

end Histories

/-! ### Key types -/

theorem Word.lt_iff_lexCompare {n : ℕ} (v w : Key n) :
    v < w ↔ lexCompare v.chunks.toList w.chunks.toList = .lt := by
  rw [Word.lexCompare_eq]
  constructor
  · intro less
    rw [if_neg less.ne, if_pos less]
  · intro decided
    by_contra other
    rw [if_neg other] at decided
    split_ifs at decided

/-- **The transformed keys of a key type spell its keys.** -/
theorem KeyType.spelling (host : Host) (t : KeyType) :
    Spelling (fun x y => t.less x y = true) (fun key => (⟨t.keyBytes host key⟩ : Key t.size)) where
  injective x y same := by
    apply (keyBytes_compare host t x y).equal.mp
    rw [show t.keyBytes host x = t.keyBytes host y from congrArg Word.chunks same, lexCompare_self]
  lt_iff x y := (Word.lt_iff_lexCompare _ _).trans (keyBytes_compare host t x y).less

/-- **A `radix_map` is a sorted map of its keys**, for integers and pairs of them on either host: every
call that compiles does and returns what it does on a map of the keys, and an iteration visits them in the
order of `<`. -/
theorem radix_map_sorted (host : Host) (t : KeyType) {T : Type} (defaultKey : t.Value) (mapped : T) :
    (∀ (s : ArTree.State t.Value (t.Value × T) t.size) (f : KeyMap t.Value T),
      KeyHistory (Traits.keyed host t T defaultKey) mapped (MapCall.Compiles t) s f →
      ActsAs (Traits.keyed host t T defaultKey) (fun x y => t.less x y = true) mapped (MapCall.Compiles t) s f) ∧
    ∀ (s : ArPrefixTree.State t.Value (t.Value × T) t.size) (f : KeyMap t.Value T), t.size ≤ 65536 →
      KeyHistory (Traits.keyed host t T defaultKey) mapped (MapCall.Compiles t) s f →
      ActsAs (Traits.keyed host t T defaultKey) (fun x y => t.less x y = true) mapped (MapCall.Compiles t) s f :=
  ⟨fun _ _ history => history.actsAs (t.spelling host) trivial,
    fun _ _ fits history => history.actsAs (t.spelling host) fits⟩

/-- Signed keys. -/
def signedKey : KeyType := .int .int16

/-- The keys of the next example: pairs, for which `count` does not compile. -/
def signedPair : KeyType := .pair signedKey (.int .uint8)

/-- A pair with a negative first component and one with a positive first component, in a map over either
tree. -/
theorem radix_map_sorted_signed :
    (∃ (s : ArTree.State signedPair.Value (signedPair.Value × ℕ) signedPair.size)
      (f : KeyMap signedPair.Value ℕ), f ((-1 : BitVec 16), (7 : BitVec 8)) = some 5 ∧
      f ((1 : BitVec 16), (2 : BitVec 8)) = some 6 ∧
      ActsAs (Traits.keyed .littleEndian signedPair ℕ ((0 : BitVec 16), (0 : BitVec 8)))
        (fun x y => signedPair.less x y = true) 0 (MapCall.Compiles signedPair) s f) ∧
    ∃ (s : ArPrefixTree.State signedPair.Value (signedPair.Value × ℕ) signedPair.size)
      (f : KeyMap signedPair.Value ℕ), f ((-1 : BitVec 16), (7 : BitVec 8)) = some 5 ∧
      f ((1 : BitVec 16), (2 : BitVec 8)) = some 6 ∧
      ActsAs (Traits.keyed .littleEndian signedPair ℕ ((0 : BitVec 16), (0 : BitVec 8)))
        (fun x y => signedPair.less x y = true) 0 (MapCall.Compiles signedPair) s f := by
  have spelling := signedPair.spelling .littleEndian
  have fits : signedPair.size ≤ 65536 := by decide
  let least : signedPair.Value := ((0 : BitVec 16), (0 : BitVec 8))
  have possible : ∀ k t, MapCall.Compiles signedPair (.assign k t : MapCall signedPair.Value ℕ) :=
    fun _ _ => trivial
  have differ : (((-1 : BitVec 16), (7 : BitVec 8)) : signedPair.Value) ≠ ((1 : BitVec 16), (2 : BitVec 8)) :=
    fun same => (by decide : (-1 : BitVec 16) ≠ 1) (Prod.mk.inj same).1
  obtain ⟨s, f, history, first, second⟩ := exists_keyHistory (H := DepthHeader) spelling least trivial
    (0 : ℕ) _ possible differ 5 6
  obtain ⟨s', f', history', first', second'⟩ := exists_keyHistory (H := PrefixHeader) spelling least fits
    (0 : ℕ) _ possible differ 5 6
  exact ⟨⟨s, f, first, second, (radix_map_sorted .littleEndian signedPair least 0).1 s f history⟩,
    s', f', first', second', (radix_map_sorted .littleEndian signedPair least 0).2 s' f' fits history'⟩

/-! ### Strings -/

namespace StringKey

variable {maxSize : ℕ}

/-- No two of these strings differ in NULs at the end. -/
theorem CString.not_nulPadded (x y : CString maxSize) : ¬ NulPadded x.bytes y.bytes := by
  rintro ⟨count, same⟩
  apply y.plain
  rw [same]
  simp

/-- **The transform of such a string** succeeds. -/
theorem CString.keyTransform_eq (x : CString maxSize) :
    keyTransform maxSize x.bytes = .ok x.transformed := by
  obtain ⟨transformed, run, -⟩ := keyTransform_of_lt x.short
  rw [CString.transformed, run]
  rfl

/-- The transformed strings compare as the strings do. -/
theorem CString.compare_eq (x y : CString maxSize) :
    lexCompare x.transformed.toList y.transformed.toList = compare x.bytes y.bytes := by
  obtain ⟨u, run, padded⟩ := keyTransform_of_lt x.short
  obtain ⟨v, run', padded'⟩ := keyTransform_of_lt y.short
  rw [x.keyTransform_eq, Except.ok.injEq] at run
  rw [y.keyTransform_eq, Except.ok.injEq] at run'
  rw [run, run', padded, padded']
  exact compare_padded maxSize x.bytes y.bytes x.short.le y.short.le (x.not_nulPadded y) (y.not_nulPadded x)

/-- **The transformed strings spell the strings.** -/
theorem spelling : Spelling (fun x y : CString maxSize => compare x.bytes y.bytes = .lt)
    fun key => (⟨key.transformed⟩ : Key maxSize) where
  injective x y same := by
    have equal : x.transformed = y.transformed := congrArg Word.chunks same
    have compared := x.compare_eq y
    rw [equal, lexCompare_self] at compared
    have bytes := (compare_eq_iff x.bytes y.bytes).mp compared.symm
    cases x
    cases y
    cases bytes
    rfl
  lt_iff x y := by
    rw [Word.lt_iff_lexCompare, x.compare_eq y]

end StringKey

/-- **A `radix_map` is a sorted map of strings** that are shorter than the array and have no NUL, in the
order of `std::string::compare`. -/
theorem string_map_sorted (maxSize : ℕ) {T : Type} (defaultKey : StringKey.CString maxSize) (mapped : T) :
    (∀ (s : ArTree.State (StringKey.CString maxSize) (StringKey.CString maxSize × T) maxSize)
        (f : KeyMap (StringKey.CString maxSize) T),
      KeyHistory (Traits.strings maxSize T defaultKey) mapped (fun _ => True) s f →
      ActsAs (Traits.strings maxSize T defaultKey) (fun x y => StringKey.compare x.bytes y.bytes = .lt) mapped
        (fun _ => True) s f) ∧
    ∀ (s : ArPrefixTree.State (StringKey.CString maxSize) (StringKey.CString maxSize × T) maxSize)
        (f : KeyMap (StringKey.CString maxSize) T), maxSize ≤ 65536 →
      KeyHistory (Traits.strings maxSize T defaultKey) mapped (fun _ => True) s f →
      ActsAs (Traits.strings maxSize T defaultKey) (fun x y => StringKey.compare x.bytes y.bytes = .lt) mapped
        (fun _ => True) s f :=
  ⟨fun _ _ history => history.actsAs StringKey.spelling trivial,
    fun _ _ fits history => history.actsAs StringKey.spelling fits⟩

/-- The strings `a` and `b`. -/
def letterA : StringKey.CString 256 := ⟨[97], by decide, by decide⟩

def letterB : StringKey.CString 256 := ⟨[98], by decide, by decide⟩

/-- Two strings in a map over either tree, with an array of the default size. -/
theorem string_map_sorted_letters :
    (∃ (s : ArTree.State (StringKey.CString 256) (StringKey.CString 256 × ℕ) 256)
      (f : KeyMap (StringKey.CString 256) ℕ), f letterB = some 5 ∧ f letterA = some 6 ∧
      ActsAs (Traits.strings 256 ℕ letterA) (fun x y => StringKey.compare x.bytes y.bytes = .lt) 0
        (fun _ => True) s f) ∧
    ∃ (s : ArPrefixTree.State (StringKey.CString 256) (StringKey.CString 256 × ℕ) 256)
      (f : KeyMap (StringKey.CString 256) ℕ), f letterB = some 5 ∧ f letterA = some 6 ∧
      ActsAs (Traits.strings 256 ℕ letterA) (fun x y => StringKey.compare x.bytes y.bytes = .lt) 0
        (fun _ => True) s f := by
  have fits : 256 ≤ 65536 := by decide
  have differ : letterB ≠ letterA := by decide
  obtain ⟨s, f, history, first, second⟩ := exists_keyHistory (H := DepthHeader) StringKey.spelling
    letterA trivial (0 : ℕ) (fun _ => True) (fun _ _ => trivial) differ 5 6
  obtain ⟨s', f', history', first', second'⟩ := exists_keyHistory (H := PrefixHeader) StringKey.spelling
    letterA fits (0 : ℕ) (fun _ => True) (fun _ _ => trivial) differ 5 6
  exact ⟨⟨s, f, first, second, (string_map_sorted 256 letterA 0).1 s f history⟩,
    s', f', first', second', (string_map_sorted 256 letterA 0).2 s' f' fits history'⟩

end CppArt
