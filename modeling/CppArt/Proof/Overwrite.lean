/-
**Writing a key where it is.**

A leaf is found by the bytes of its key that the nodes above it branch at. A key that has the same bytes
there may be written over it, and no other one where `find` compares all of them.

* `Ctx.agree_of_inPlace`: a key in the place of another one takes the same path to the leaf;
* `Holds.rekey`: so the tree represents the new table;
* `findLoop_astray`: `find` reaches the leaf by no other path, by induction on the tree;
* `key_overwritten`: writes in place after every history, and what others do.
-/

import CppArt.Model.Overwrite
import CppArt.Proof.Iteration

namespace CppArt

open Table

variable {H K V : Type} {n : ℕ}

/-- **What a write to a key requires of a class.** `Short` are the key sizes for which the prefixes are
stored whole. -/
class RekeyableVariant (H : Type) [Variant H] [HeaderSpec H] where
  Short : ℕ → Prop
  /-- There is still a node for a set of keys when one of them is replaced, the bytes down to the node's
  being the same. -/
  broad_rekey {n r : ℕ} {S : Set (Key n)} {w w' : Key n} : Broad H r S → Word.Agree (r + 1) w w' →
    (w' ∈ S → w' = w) → Broad H r (insert w' (S \ {w}))
  /-- `find` passes an inner node only if the key agrees with the keys below up to the node's byte. -/
  agree_of_pass {K V : Type} {n : ℕ} {s : St H K V n} {a : Addr} {p : Option Addr} {h : H} {l : Layout}
    {d r : ℕ} {S : Set (Key n)} {k : Key n} : Short n → s.mem.get a = some ⟨p, .inner h l⟩ →
    branch h < n → (∀ v ∈ S, Describes h d v) → (∀ v ∈ S, Word.Agree d k v) →
    Variant.passStored a k d s = .ok (some r) s → ∀ v ∈ S, Word.Agree (branch h) k v

/-! ### Writes in place -/

/-- A key in the place of another one is not stored, unless it is that one. -/
theorem InPlace.eq_of_mem {S : Set (Key n)} {w w' : Key n} (fitting : InPlace S w w') (member : w' ∈ S) :
    w' = w := by
  by_contra other
  have agree : ∀ j, Word.Agree j w w' := by
    intro j
    induction j with
    | zero => exact Word.agree_zero w w'
    | succ j ih => exact fitting w' member other j ih
  exact other (Word.eq_of_agree (agree n)).symm

/-- The table has as many entries as before. -/
theorem size_rekey {M : Contents n V} {w w' : Key n} {entry : Addr × V} (present : w ∈ dom M)
    (fresh : w' ∈ dom M → w' = w) : size (put (drop M w) w' entry) = size M := by
  have absent : drop M w w' = none := by
    by_cases same : w' = w
    · rw [same, drop_self]
    · rw [drop_of_ne _ same]
      by_contra stored
      exact same (fresh stored)
  rw [size_put_of_eq_none absent, size_drop_of_mem present]

/-- A key that is alone below a node is replaced there. -/
theorem under_rekey {M : Contents n V} {w w' : Key n} {entry entry' : Addr × V} {d : ℕ}
    (agree : Word.Agree d w w') (alone : under M w d = single w entry) :
    under (put (drop M w) w' entry') w d = single w' entry' := by
  funext u
  by_cases same : u = w'
  · rw [same, under_of_agree agree, put_self, single_self]
  · rw [single_apply, if_neg same]
    by_cases near : Word.Agree d w u
    · rw [under_of_agree near, put_of_ne _ _ same]
      by_cases old : u = w
      · rw [old, drop_self]
      · rw [drop_of_ne _ old, ← under_of_agree (m := M) near, alone, single_apply, if_neg old]
    · exact under_of_not_agree near

/-- **`*it = x;`** -/
theorem overwrite_ok {s : St H K V n} {it : Addr} {q : Option Addr} {v : V}
    (leaf : s.mem.get it = some ⟨q, .leaf v⟩) (x : V) :
    overwrite it x s = .ok ⟨⟩ (s.withMem (s.mem.set it ⟨q, .leaf x⟩)) := by
  unfold overwrite
  rw [Exec.bind_of_ok (load_ok leaf)]
  rfl

/-- **The path is that of the new key as well.** -/
theorem Ctx.agree_of_inPlace [Header H] [HeaderSpec H] {tr : Traits K V n} {mem : Memory (Cell H V)}
    {dm e p c : Addr} {root : Option Addr} {w w' : Key n} {M : Contents n V} {d : ℕ} {own : Set Addr}
    (ctx : Ctx tr mem dm e root w M (dom M) p c d own) (fitting : InPlace (dom M) w w') :
    Word.Agree d w w' := by
  cases ctx with
  | top => exact Word.agree_zero w w'
  | @step p a c d own h l sub outer node slot fits broad clear =>
      obtain ⟨u, inside, other⟩ := (HeaderSpec.broad_nontrivial broad).exists_ne w
      exact fitting u inside.2 other (branch h) (node.shared u (mem_dom_under.mpr inside))

/-- The nodes above a leaf do not change with it. -/
theorem Below.overwritten {mem : Memory (Cell H V)} {it a y : Addr} {q : Option Addr} {v x : V}
    (leaf : mem.get it = some ⟨q, .leaf v⟩) (below : Below mem a y) :
    Below (mem.set it ⟨q, .leaf x⟩) a y := by
  induction below with
  | refl a => exact .refl a
  | child cell slot rest ih =>
      refine .child ((Memory.set_get_of_ne _ _ ?_).trans cell) slot ih
      rintro rfl
      cases cell.symm.trans leaf

section Writes

variable [Variant H] [HeaderSpec H] [RekeyableVariant H] {tr : Traits K V n} {s : St H K V n}
  {e it : Addr} {w : Key n} {v x : V} {M : Contents n V} {own : Set Addr}

/-- **The tree represents the new table.** -/
theorem Holds.rekey (holds : Holds tr s e M own) (entry : M w = some (it, v))
    (fitting : InPlace (dom M) w (tr.keyOf x)) :
    ∃ s', overwrite it x s = .ok ⟨⟩ s' ∧
      Holds tr s' e (put (drop M w) (tr.keyOf x) (it, x)) own := by
  obtain ⟨r, root⟩ : ∃ r, s.tree.root = some r := by
    rcases root : s.tree.root with _ | r
    · rw [holds.eq_empty root] at entry
      cases entry
    · exact ⟨r, rfl⟩
  obtain ⟨rest, ctx₀, rep, clear, owned⟩ := holds.path root w
  obtain ⟨q, d, own', ctx, leaf, alone, owned', apart⟩ := ctx₀.locate entry (n + 1) (by omega) rep clear
  have agree : Word.Agree d w (tr.keyOf x) := ctx.agree_of_inPlace fitting
  have fresh : tr.keyOf x ∈ dom M → tr.keyOf x = w := fitting.eq_of_mem
  have domain : dom (put (drop M w) (tr.keyOf x) (it, x)) = insert (tr.keyOf x) (dom M \ {w}) := by
    rw [dom_put, dom_drop]
  have path : Ctx tr (s.mem.set it ⟨some q, .leaf x⟩) s.tree.dummyNode e s.tree.root w
      (put (drop M w) (tr.keyOf x) (it, x)) (dom (put (drop M w) (tr.keyOf x) (it, x))) q it d own' := by
    refine (ctx.update (fun u outside => ?_) fun r d' le lt broad => ?_).frame fun y inside =>
      Memory.set_get_of_ne _ _ ?_
    · have other : u ≠ tr.keyOf x := fun same => outside (same ▸ agree)
      have other' : u ≠ w := fun same => outside (same ▸ Word.Agree.refl d u)
      rw [put_of_ne _ _ other, drop_of_ne _ other']
    · have here : Word.Agree (r + 1) w (tr.keyOf x) := agree.mono lt
      refine HeaderSpec.broad_mono ?_ (RekeyableVariant.broad_rekey broad here fun inside => fresh inside.2)
      rw [domain]
      rintro u (rfl | ⟨inside, other⟩)
      · exact ⟨here.mono (le.trans (Nat.le_succ r)), Set.mem_insert _ _⟩
      · exact ⟨inside.1, Set.mem_insert_of_mem _ ⟨inside.2, other⟩⟩
    · rintro rfl
      exact apart inside
  refine ⟨_, overwrite_ok leaf x, ?_, ?_, holds.stateless, holds.calm⟩
  · rw [owned, owned']
    refine path.close ?_ (Set.disjoint_singleton_right.mpr apart)
    rw [under_rekey agree alone]
    exact .leaf (Memory.set_get_self leaf _) ctx.depth_le
  · rw [size_rekey (mem_dom_of_eq_some entry) fresh]
    exact holds.count

/-! ### Other writes -/

/-- **`find` reaches a leaf by the path of its old key only.** If it returns the leaf for the new key, that
is in the place of the old one. -/
theorem findLoop_astray [LawfulVariant H] {w' : Key n} {q : Option Addr} (short : RekeyableVariant.Short H n)
    {s' : St H K V n} (leaf : s.mem.get it = some ⟨q, .leaf v⟩)
    (elsewhere : ∀ y, y ≠ it → s'.mem.get y = s.mem.get y) (ended : ∀ t, endIt s' ≠ .ok it t)
    (stateless : s'.tree.keyTransform = tr.defaultTransform)
    {p a : Addr} {d : ℕ} {m : Contents n V} (rep : Rep tr s.mem p a d m own) (entry : m w = some (it, v))
    (near : ∀ u ∈ dom m, Word.Agree d w' u) :
    ∀ steps t, n < steps + d → findLoop tr w' steps d (some a) s' = .ok it t → InPlace (dom m) w w' := by
  induction rep with
  | @leaf p a d v₀ cell le =>
      intro steps t _ _ u member other j agree
      have inside : w ∈ dom (single (tr.keyOf v₀) (a, v₀)) := mem_dom_of_eq_some entry
      rw [dom_single] at member inside
      exact absurd (member.trans inside.symm) other
  | @inner p a d m h l sub cell wf fits bound shared describes broad bare kid apart disjoint ih =>
      intro steps t enough found
      have member : w ∈ dom m := mem_dom_of_eq_some entry
      have le : d ≤ branch h := HeaderSpec.depth_le (describes w member)
      have here : fiber m (branch h) (w.letter (branch h)) w = some (it, v) := by
        rw [fiber_of_letter rfl, entry]
      obtain ⟨c, slot⟩ : ∃ c, l.child (w.letter (branch h)) = some c := by
        rw [← Option.ne_none_iff_exists']
        intro none
        rw [(bare _ none).1] at here
        cases here
      have inside : it ∈ sub (w.letter (branch h)) := ((kid _ c slot).leaf_cell here).2.1
      have cell' : s'.mem.get a = some ⟨some p, .inner h l⟩ := by
        refine (elsewhere a ?_).trans cell
        rintro rfl
        cases cell.symm.trans leaf
      obtain ⟨steps, rfl⟩ : ∃ t, steps = t + 1 := ⟨steps - 1, by omega⟩
      rw [findLoop, if_pos (by omega), Exec.bind_of_ok (isLeaf_inner cell'), if_neg Bool.false_ne_true] at found
      rcases LawfulVariant.passStored_spec w' cell' bound describes ⟨w, member⟩ with run | ⟨run, -⟩
      · have agree : ∀ u ∈ dom m, Word.Agree (branch h) w' u :=
          RekeyableVariant.agree_of_pass short cell' bound describes near run
        rw [Exec.bind_of_ok run] at found
        simp only [] at found
        rw [Exec.bind_of_ok (chunkAt_ok w' bound _), Exec.bind_of_ok (findChild_ok cell' wf _)] at found
        by_cases same : w'.letter (branch h) = w.letter (branch h)
        · -- the loop goes on towards the leaf
          have path : Word.Agree (branch h + 1) w w' :=
            Word.agree_succ.mpr ⟨(agree w member).symm, same.symm⟩
          rw [same, slot] at found
          have deeper := ih _ c slot here (fun u below => ?_) steps t (by omega) found
          · intro u stored other j agreeU
            by_cases letter : u.letter (branch h) = w.letter (branch h)
            · refine deeper u ?_ other j agreeU
              rw [mem_dom, fiber_of_letter letter]
              exact stored
            · refine path.mono (Nat.succ_le_succ ?_)
              by_contra beyond
              exact letter (agreeU (branch h) (not_le.mp beyond)).symm
          · obtain ⟨letter, stored⟩ := mem_dom_fiber.mp below
            exact Word.agree_succ.mpr ⟨agree u stored, same.trans letter.symm⟩
        · -- it goes to a leaf that is not the one, or to the end
          rcases slot' : l.child (w'.letter (branch h)) with _ | c'
          · rw [slot', findLoop_none (by omega) (by omega)] at found
            exact absurd found (ended t)
          · have away : it ∉ sub (w'.letter (branch h)) := fun inside' =>
              Set.disjoint_left.mp (disjoint _ _ same) inside' inside
            have rep' : Rep tr s'.mem a c' (branch h + 1) _ _ := (kid _ c' slot').frame fun y theirs =>
              elsewhere y (ne_of_mem_of_not_mem theirs away)
            rw [slot', findLoop_spec stateless rep' steps (by omega)] at found
            rcases other : fiber m (branch h) (w'.letter (branch h)) w' with _ | ⟨it', v'⟩
            · rw [other] at found
              exact absurd found (ended t)
            · rw [other] at found
              cases found
              exact absurd (rep'.leaf_cell other).2.1 away
      · rw [Exec.bind_of_ok run] at found
        exact absurd found (ended t)

/-- **A container that answers with the new key was written in place.** -/
theorem Holds.inPlace [LawfulVariant H] (short : RekeyableVariant.Short H n) (holds : Holds tr s e M own)
    (stored : Stored s it v) {s' : St H K V n} (run : overwrite it x s = .ok ⟨⟩ s')
    (refines : Refines tr s' ((values M).rekey (tr.keyOf v) (tr.keyOf x) x)) :
    InPlace (dom M) (tr.keyOf v) (tr.keyOf x) := by
  have entry := holds.stored_iff.mp stored
  obtain ⟨r, q, root, below, leaf⟩ := stored
  obtain ⟨rest, ctx, rep, -, -⟩ := holds.path root (tr.keyOf v)
  rw [under_zero] at rep
  cases run.symm.trans (overwrite_ok leaf x)
  have other : e ≠ it := ((holds.entry entry).2.2.1).symm
  have endLeaf : ∀ t, endIt (s.withMem (s.mem.set it ⟨q, .leaf x⟩)) ≠ .ok it t := by
    intro t same
    have sentinel : (s.mem.set it ⟨q, .leaf x⟩).get s.tree.dummyNode
        = some ⟨some s.tree.dummyNode, .dummy s.tree.root e⟩ := by
      refine (Memory.set_get_of_ne _ _ ?_).trans ctx.sentinel.2.1
      intro same
      rw [← same, ctx.sentinel.2.1] at leaf
      cases leaf
    have run : endIt (s.withMem (s.mem.set it ⟨q, .leaf x⟩))
        = .ok e (s.withMem (s.mem.set it ⟨q, .leaf x⟩)) := by
      unfold endIt
      rw [Exec.bind_of_ok (this_apply _), St.withMem_tree, Exec.bind_of_ok (load_ok sentinel)]
      rfl
    cases same.symm.trans run
    exact other rfl
  obtain ⟨it', found, -, element⟩ := refines.find (tr.keyOfValue x)
  have value : (values M).rekey (tr.keyOf v) (tr.keyOf x) x (tr.defaultTransform (tr.keyOfValue x))
      = some x := put_self _ _ x
  have here : Stored (s.withMem (s.mem.set it ⟨q, .leaf x⟩)) it x :=
    ⟨r, q, root, below.overwritten leaf, Memory.set_get_self leaf _⟩
  obtain rfl := refines.represents.unique it' it x x (element x value) here rfl
  unfold find at found
  rw [Exec.bind_of_ok (this_apply _), St.withMem_tree, root] at found
  simp only [holds.stateless] at found
  have elsewhere : ∀ y, y ≠ it' → (s.withMem (s.mem.set it' ⟨q, .leaf x⟩)).mem.get y = s.mem.get y :=
    fun y other => Memory.set_get_of_ne _ _ other
  exact findLoop_astray short leaf elsewhere endLeaf holds.stateless rep entry (fun u _ => Word.agree_zero _ u)
    (n + 1) _ (by omega) found

end Writes

/-! ### Histories -/

/-- **Elements may be written through iterators**: the container answers as the reference map does, and
does so after a write exactly if the new key is in the place of the old one. The second half is for keys of
the sizes that `exact` admits. -/
structure TakesWrites [Variant H] (exact : Prop) (tr : Traits K V n) (s : St H K V n) (m : Table Byte n V) :
    Prop where
  refines : Refines tr s m
  iterates : ∃ its, Iterates tr s its
  write : ∀ it v x, Stored s it v → ∃ s', overwrite it x s = .ok ⟨⟩ s' ∧
    (InPlace (dom m) (tr.keyOf v) (tr.keyOf x) → Refines tr s' (m.rekey (tr.keyOf v) (tr.keyOf x) x)) ∧
    (exact → Refines tr s' (m.rekey (tr.keyOf v) (tr.keyOf x) x) →
      InPlace (dom m) (tr.keyOf v) (tr.keyOf x))

section Histories

variable [Variant H] [HeaderSpec H] [LawfulVariant H] [RekeyableVariant H] {tr : Traits K V n}
  {s : St H K V n} {m : Table Byte n V}

theorem values_rekey (M : Contents n V) (it : Addr) (w w' : Key n) (x : V) :
    values (put (drop M w) w' (it, x)) = (values M).rekey w w' x := by
  rw [values_put, values_drop, Table.rekey]

/-- **The invariant holds after every history.** -/
theorem OverwriteHistory.holds (admits : Admits H n) (history : OverwriteHistory tr s m) :
    ∃ e M own, Holds tr s e M own ∧ values M = m := by
  induction history with
  | start calm run =>
      obtain ⟨s₁, run₁, holds, -⟩ := init_spec tr calm (Tree.uninitialised tr.defaultTransform) rfl
      cases run.symm.trans run₁
      exact ⟨_, _, _, holds, rfl⟩
  | call _ effect run ih =>
      obtain ⟨e, M, own, holds, rfl⟩ := ih
      obtain ⟨answer₁, s₁, M', own', run₁, holds', -, same, -⟩ := perform_spec admits holds effect
      cases run.symm.trans run₁
      exact ⟨e, M', own', holds', same⟩
  | overwrite _ stored fitting run ih =>
      obtain ⟨e, M, own, holds, rfl⟩ := ih
      rw [dom_values] at fitting
      obtain ⟨s₁, run₁, holds'⟩ := holds.rekey (holds.stored_iff.mp stored) fitting
      cases run.symm.trans run₁
      exact ⟨e, _, own, holds', values_rekey M _ _ _ _⟩

/-- **Writes after every history.** -/
theorem OverwriteHistory.takesWrites (admits : Admits H n) (history : OverwriteHistory tr s m) :
    TakesWrites (RekeyableVariant.Short H n) tr s m := by
  obtain ⟨e, M, own, holds, rfl⟩ := history.holds admits
  obtain ⟨ks, lists⟩ := Dir.exists_lists (Set.toFinite (dom M))
  refine ⟨holds.refines admits, ⟨_, holds.iterates lists⟩, fun it v x stored => ?_⟩
  have entry := holds.stored_iff.mp stored
  obtain ⟨-, -, -, q, leaf⟩ := holds.entry entry
  refine ⟨_, overwrite_ok leaf x, fun fitting => ?_, fun short refines => ?_⟩
  · rw [dom_values] at fitting
    obtain ⟨s', run, holds'⟩ := holds.rekey entry fitting
    cases run.symm.trans (overwrite_ok leaf x)
    rw [← values_rekey M it]
    exact holds'.refines admits
  · rw [dom_values]
    exact holds.inPlace short stored (overwrite_ok leaf x) refines

end Histories

/-! ### The two containers -/

/-- `ar_tree` has no prefixes. -/
instance : RekeyableVariant DepthHeader where
  Short _ := True
  broad_rekey := by
    rintro n r S w w' several - fresh
    obtain ⟨u, inside, other⟩ := several.exists_ne w
    have other' : u ≠ w' := by
      rintro rfl
      exact other (fresh inside)
    exact ⟨u, Or.inr ⟨inside, other⟩, w', Or.inl rfl, other'⟩
  agree_of_pass := by
    intro K V n s a p h l d r S k _ _ _ describes near _ v member
    have same : branch h = d := describes v member
    rw [same]
    exact near v member

/-- `ar_prefix_tree` stores eight bytes of a prefix. -/
instance : RekeyableVariant PrefixHeader where
  Short n := n ≤ maxPrefixLength
  broad_rekey := by
    rintro n r S w w' ⟨v, inV, u, inU, differ⟩ agree -
    have letter : w'.letter r = w.letter r := (agree r (Nat.lt_succ_self r)).symm
    have kept : ∀ y ∈ S, ∃ y' ∈ insert w' (S \ {w}), y'.letter r = y.letter r := by
      intro y inside
      by_cases same : y = w
      · exact ⟨w', Or.inl rfl, by rw [same, letter]⟩
      · exact ⟨y, Or.inr ⟨inside, same⟩, rfl⟩
    obtain ⟨v', inV', sameV⟩ := kept v inV
    obtain ⟨u', inU', sameU⟩ := kept u inU
    exact ⟨v', inV', u', inU', by rwa [sameV, sameU]⟩
  agree_of_pass := by
    intro K V n s a p h l d r S k short cell bound describes near run v member
    obtain ⟨rfl, spells⟩ := describes v member
    have le : h.depth + h.prefixLength < n := bound
    have whole : min h.prefixLength maxPrefixLength = h.prefixLength := min_eq_left (by omega)
    rcases ArPrefixTree.mismatchFrom_spec (s := s) (k := k) v (min h.prefixLength maxPrefixLength) 0
      (by omega) (fun i _ lt => ArPrefixTree.storedAt_ok spells (by omega)) with
      ⟨-, equal⟩ | ⟨j, -, lt, compared, -, -⟩
    · intro i below
      by_cases early : i < h.depth
      · exact near v member i early
      · have inside : i < h.depth + h.prefixLength := below
        have same := equal (i - h.depth) (Nat.zero_le _) (by omega)
        rwa [Nat.add_sub_cancel' (not_lt.mp early)] at same
    · have mismatch : ArPrefixTree.pesPrefixMismatchPos a k s = .ok j s := by
        unfold ArPrefixTree.pesPrefixMismatchPos
        rw [Exec.bind_of_ok (headerOf_ok cell), Exec.bind_of_ok compared]
        rfl
      have refused : Variant.passStored a k h.depth s = .ok none s := by
        show ArPrefixTree.passStored a k h.depth s = .ok none s
        unfold ArPrefixTree.passStored
        rw [Exec.bind_of_ok mismatch, Exec.bind_of_ok (headerOf_ok cell), if_pos (by omega)]
        rfl
      cases run.symm.trans refused

/-- **A key is overwritten through an iterator.** In runs of calls and of writes in place both containers
answer as the reference map does. A write that is not in place spoils an `ar_tree`, and an
`ar_prefix_tree` whose prefixes are stored whole. -/
theorem key_overwritten {K V : Type} {n : ℕ} (tr : Traits K V n) :
    (∀ (s : ArTree.State K V n) (m : Table Byte n V), OverwriteHistory tr s m → TakesWrites True tr s m) ∧
    ∀ (s : ArPrefixTree.State K V n) (m : Table Byte n V), n ≤ 65536 → OverwriteHistory tr s m →
      TakesWrites (n ≤ maxPrefixLength) tr s m :=
  ⟨fun _ _ history => history.takesWrites trivial, fun _ _ fits history => history.takesWrites fits⟩

theorem History.overwriteHistory [Variant H] {tr : Traits K V n} {s : St H K V n} {m : Table Byte n V}
    (history : History tr s m) : OverwriteHistory tr s m := by
  induction history with
  | start calm run => exact .start calm run
  | call _ effect run ih => exact ih.call effect run

/-- Only the first byte of the key `[1, 2]` tells it from `[3, 4]`. -/
theorem inPlace_pair : InPlace (dom (Table.ofList (Traits.identity 2) [⟨#v[1, 2]⟩, ⟨#v[3, 4]⟩]))
    ⟨#v[1, 2]⟩ ⟨#v[1, 9]⟩ := by
  rw [dom_ofList]
  rintro u ⟨y, listed, rfl⟩ other j agree
  obtain rfl : y = ⟨#v[3, 4]⟩ := by
    rcases List.mem_cons.mp listed with rfl | last
    · exact absurd rfl other
    · exact List.mem_singleton.mp last
  obtain rfl : j = 0 := by
    by_contra positive
    have same := agree 0 (by omega)
    revert same
    decide
  intro i lt
  obtain rfl : i = 0 := by omega
  rfl

/-- The key `[1, 2]` is overwritten by `[1, 9]` beside `[3, 4]`. -/
theorem exists_overwritten [Variant H] [HeaderSpec H] [LawfulVariant H] [RekeyableVariant H]
    (admits : Admits H 2) :
    ∃ s it s', insertAll (Traits.identity 2) [⟨#v[1, 2]⟩, ⟨#v[3, 4]⟩] (blankState H (Traits.identity 2))
        = .ok ⟨⟩ s ∧ overwrite it ⟨#v[1, 9]⟩ s = .ok ⟨⟩ s' ∧
      OverwriteHistory (Traits.identity 2) s'
        ((Table.ofList (Traits.identity 2) [⟨#v[1, 2]⟩, ⟨#v[3, 4]⟩]).rekey ⟨#v[1, 2]⟩ ⟨#v[1, 9]⟩ ⟨#v[1, 9]⟩) := by
  have value : Table.ofList (Traits.identity 2) [⟨#v[1, 2]⟩, ⟨#v[3, 4]⟩] ⟨#v[1, 2]⟩ = some ⟨#v[1, 2]⟩ := by
    decide
  obtain ⟨s, run, history⟩ := insertAll_history (H := H) admits (Traits.identity 2)
    [⟨#v[1, 2]⟩, ⟨#v[3, 4]⟩]
  obtain ⟨it, stored, -⟩ := ((history.refines admits).represents.entries _ _).mp value
  obtain ⟨s', written, -⟩ := (history.overwriteHistory.takesWrites admits).write it _ ⟨#v[1, 9]⟩ stored
  exact ⟨s, it, s', run, written, history.overwriteHistory.overwrite stored inPlace_pair written⟩

/-- A key that has been overwritten in either container. -/
theorem key_overwritten_pair :
    (∃ s it s', insertAll (Traits.identity 2) [⟨#v[1, 2]⟩, ⟨#v[3, 4]⟩]
        (blankState DepthHeader (Traits.identity 2)) = .ok ⟨⟩ s ∧
      overwrite it ⟨#v[1, 9]⟩ s = .ok ⟨⟩ s' ∧ TakesWrites True (Traits.identity 2) s'
        ((Table.ofList (Traits.identity 2) [⟨#v[1, 2]⟩, ⟨#v[3, 4]⟩]).rekey ⟨#v[1, 2]⟩ ⟨#v[1, 9]⟩ ⟨#v[1, 9]⟩)) ∧
    ∃ s it s', insertAll (Traits.identity 2) [⟨#v[1, 2]⟩, ⟨#v[3, 4]⟩]
        (blankState PrefixHeader (Traits.identity 2)) = .ok ⟨⟩ s ∧
      overwrite it ⟨#v[1, 9]⟩ s = .ok ⟨⟩ s' ∧ TakesWrites (2 ≤ maxPrefixLength) (Traits.identity 2) s'
        ((Table.ofList (Traits.identity 2) [⟨#v[1, 2]⟩, ⟨#v[3, 4]⟩]).rekey ⟨#v[1, 2]⟩ ⟨#v[1, 9]⟩ ⟨#v[1, 9]⟩) := by
  have fits : 2 ≤ 65536 := by decide
  obtain ⟨s, it, s', run, written, history⟩ := exists_overwritten (H := DepthHeader) trivial
  obtain ⟨t, it', t', run', written', history'⟩ := exists_overwritten (H := PrefixHeader) fits
  exact ⟨⟨s, it, s', run, written, (key_overwritten (Traits.identity 2)).1 s' _ history⟩,
    t, it', t', run', written', (key_overwritten (Traits.identity 2)).2 t' _ fits history'⟩

end CppArt
