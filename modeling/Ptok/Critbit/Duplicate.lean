import Ptok.Lib.Finds
import Ptok.Critbit.Ownership

/-!
# Inserting a key that is there

The walk of `critbit_insert` then ends at the key's leaf, `at` is 0, and the inner half of the new block becomes a node
whose `bit` is 0: for everybody else a leaf of the key, with the address of the new leaf half as its value.
-/

namespace Ptok.Critbit

open Lib

variable {m : Mem} {g : Ghost} {t : T} {key : Word}

/-! ## critbit_remove in a tree -/

/-- Any store, and nothing to say about it. -/
abbrev Stores : Mem → Unit → Event → Unit → Prop := fun _ _ _ _ => True

theorem Stores.does {α : Type} {x : W α} {a : α} {log : List Event} (h : x m = .ok (a, log)) :
    Does Stores x m () a log () := by
  refine ⟨h, ?_⟩
  clear h
  induction log generalizing m with
  | nil => exact .nil m ()
  | cons e log ih => exact .cons trivial ih

theorem takeValue_does (k : Addr) (m : Mem) : ∃ log, Does Stores (do
    let value ← Wr.read fun m => (m.node k).child 0
    freeNode k
    pure value : W ℕ) m () (m.leafAt k).value log () := by
  have hany : ∀ m e, Stores m () e () := fun _ _ => trivial
  exact ⟨_, .read (.bind (.read (.emit (hany _ _) (.emit_last (hany _ _)))) (.pure _ _ _))⟩

theorem splice_does {nParent : Slot Addr (Fin 2)} {a k : Addr} (ha : a ≠ 0) (i : Fin 2)
    (hk : ∀ i, nParent ≠ .child k i) : ∃ log, Does Stores (splice nParent a (.child a i) k) m () (m.leafAt k).value log () := by
  have hleaf : ∀ q, (m.store (.slot nParent q)).leafAt k = m.leafAt k := fun q => by
    simp only [Mem.leafAt, slot_node m hk]
  have hcase : ∃ q, ∀ {v log}, Does Stores (do
        let value ← Wr.read fun m => (m.node k).child 0
        freeNode k
        pure value : W ℕ) (m.store (.slot nParent q)) () v log () →
      Does Stores (splice nParent a (.child a i) k) m () v (.slot nParent q :: log) () := by
    by_cases hi : i = 0
    · refine ⟨(m.node a).child 1, fun hdo => .query (nodeAt_ok ha) ?_⟩
      rw [if_pos (by rw [hi])]
      exact .emit trivial hdo
    · refine ⟨(m.node a).child 0, fun hdo => .query (nodeAt_ok ha) ?_⟩
      rw [if_neg (by simpa using hi)]
      exact .emit trivial hdo
  obtain ⟨q, hq⟩ := hcase
  obtain ⟨log, hdo⟩ := takeValue_does k (m.store (.slot nParent q))
  rw [hleaf] at hdo
  exact ⟨_, hq hdo⟩

/-- What it returns if the key is bound, whatever else the memory may be. -/
theorem critbitRemove_value {v : ℕ} (hrep : Rep m.cell m.root t) (hwf : bits.WF t 0) (hv : t.map key = some v) :
    ∃ log, ∀ fuel, t.height < fuel → Does Stores (critbitRemove fuel key) m () v log () := by
  have hempty : m.root ≠ 0 := by
    intro h0
    rw [(rep_zero_iff hrep).mp h0] at hv
    cases hv
  by_cases hb : (m.node m.root).bit = 0
  · have hal : Tree.focus (Coding.along bits key) t = .leaf m.root (m.leafAt m.root) := by
      rw [hrep.unique (rep_leaf.mpr ⟨rfl, hempty, hb, rfl⟩)]
      rfl
    have hm := (map_of_along hal).symm.trans hv
    by_cases hk : (m.node m.root).path = key
    · cases (if_pos hk).symm.trans hm
      obtain ⟨log, hdo⟩ := takeValue_does m.root (m.store (.slot .root 0))
      refine ⟨.slot .root 0 :: log, fun fuel _ => .read ?_⟩
      rw [if_neg hempty]
      refine .query (nodeAt_ok hempty) ?_
      rw [if_pos hb, if_pos hk]
      exact .emit trivial hdo
    · cases (if_neg hk).symm.trans hm
  · obtain ⟨a, c, k, -, ha0, hk0, -, hal, hd⟩ := removeDive_eq key .root .root m.root hrep hwf hempty hb
    have hm := (map_of_along hal).symm.trans hv
    have hslot : ∀ i, Tree.slotOf (Coding.toParent bits key) .root t ≠ .child k i := by
      intro i hi
      have hsub := Tree.sub_focus (Coding.along bits key) t
      rw [hal] at hsub
      obtain ⟨l, hl⟩ := hrep.leaf_of_mem (hsub.mem_leaves (Multiset.mem_singleton_self k))
      rcases Tree.slotOf_cases (Coding.toParent bits key) .root t with he | ⟨p, hp, j, he⟩
      · cases hi.symm.trans he
      · cases hi.symm.trans he
        obtain ⟨n, ch, hn⟩ := hrep.node_of_mem hp
        cases hl.symm.trans hn
    by_cases hk : (m.node k).path = key
    · cases (if_pos hk).symm.trans hm
      obtain ⟨log, hdo⟩ := splice_does (m := m) ha0 (bits.dig key (bits.pos (m.hdr a))) hslot
      refine ⟨log, fun fuel hf => .read ?_⟩
      rw [if_neg hempty]
      refine .query (nodeAt_ok hempty) ?_
      rw [if_neg hb]
      refine .query (hd fuel hf) (.query (nodeAt_ok hk0) ?_)
      rw [if_neg (not_not.mpr hk)]
      exact hdo
    · cases (if_neg hk).symm.trans hm

/-! ## critbit_insert of a bound key -/

theorem splitHdr_self (key : Word) : splitHdr key key = ⟨key, 0⟩ := by
  have hones : (0 : Word) - 1 = BitVec.allOnes 64 := by decide
  have hbit : splitBit key key = 0 := by simp [splitBit]
  rw [splitHdr, hbit, hones, BitVec.and_allOnes]

/-- The tree in which the leaf of the key has another address and another value. -/
def relabel (key : Word) (a : Addr) (v : ℕ) (t : T) : T := Tree.plug (insertSel key) (.leaf a ⟨key, v⟩) t

theorem relabel_wf {v : ℕ} (hwf : bits.WF t 0) (a : Addr) : bits.WF (relabel key a v t) 0 := by
  refine ⟨hwf.fits.plug_insert (insertSel_follows key) (fun _ _ => agree_zero _ _) (fun l hl => ?_) fun _ _ _ => trivial, ?_⟩
  · obtain rfl : (⟨key, v⟩ : Leaf) = l := hl
    exact Or.inl rfl
  · exact hwf.branching.plug trivial (by simp)

theorem relabel_map {v : ℕ} (hwf : bits.WF t 0) {n : Addr} (hfoc : Tree.focus (insertSel key) t = .leaf n ⟨key, v⟩)
    (a : Addr) (v' : ℕ) : (relabel key a v' t).map key = some v' ∧ ∀ k ≠ key, (relabel key a v' t).map k = t.map k := by
  have hself : bits.get key (.leaf a ⟨key, v'⟩ : T) = some ⟨key, v'⟩ := if_pos rfl
  refine ⟨?_, fun k hk => ?_⟩
  · show (bits.get key (Tree.plug _ _ t)).map _ = _
    rw [Coding.get_plug (insertSel_follows key).chooses _ hwf.fits, hself]
    rfl
  · show (bits.get k (Tree.plug _ _ t)).map _ = _
    rw [Coding.get_plug_of_eq]
    · rfl
    · rw [hfoc]
      exact (if_neg hk.symm).trans (if_neg hk.symm).symm

/-- The inner half becomes a leaf of the key; its value is the address of the new leaf half. -/
theorem linkSplit_duplicate {v : ℕ} {k n : Addr} (h : Inv m g) (hfr : k + 1 ∈ g.fresh) (hn : Rep m.cell n (.leaf n ⟨key, v⟩)) :
    ∃ log, linkSplit key k (Tree.slotOf (insertSel key) .root g.tree) n m = .ok ((), log) ∧
      Rep (storeAll m log).cell (storeAll m log).root (relabel key (k + 1) k g.tree) := by
  obtain ⟨-, hn0, -, hleaf⟩ := rep_leaf.mp hn
  have hpath : (m.node n).path = key := congrArg Leaf.key hleaf.symm
  let log := splitLog key key (k + 1) k n
  let s := Tree.slotOf (insertSel key) .root g.tree
  have hheld : Path (Step fun _ => False) m g log g :=
    .cons (.held (.child hfr _ _)) (.cons (.held (.child hfr _ _)) (.cons (.held (.bit hfr _)) (.single (.held (.path hfr _)))))
  have hinv := hheld.inv Step.inv h
  have hnode : (storeAll m log).hdr (k + 1) = ⟨key, 0⟩ ∧ ((storeAll m log).node (k + 1)).child 0 = k := by
    have hlog := storeAll_splitLog key key (k + 1) k n m
    have hself := splitHdr_self key
    rw [splitHdr, Hdr.mk.injEq] at hself
    have hdir : dirOf (key &&& splitBit key key) = 0 := by
      rw [hself.2]
      simp [dirOf]
    rw [hdir] at hlog
    have hself' : (storeAll m log).node (k + 1) =
        ⟨Function.update (Function.update (m.node (k + 1)).child 0 k) (1 - 0) n, key, 0⟩ := by
      rw [show storeAll m log = _ from hlog, hself.1, hself.2]
      exact Function.update_self _ _ _
    simp [Mem.hdr, hself']
  refine ⟨log ++ [.slot s (k + 1)], ?_, ?_⟩
  · simp [linkSplit, nodeAt_ok hn0, hpath, Except.bind, Except.map, log, splitLog, splitBit, s]
  · rw [storeAll_append]
    have hout : ∀ i, s ≠ .child (k + 1) i := fun i hi =>
      (hinv.tree_node (hinv.slot_out (show Tree.slotOf (insertSel key) .root g.tree = _ from hi)).1).1.fresh hfr
    have hsame : ((storeAll m log).store (.slot s (k + 1))).node (k + 1) = (storeAll m log).node (k + 1) :=
      slot_node _ hout
    have hu : Rep ((storeAll m log).store (.slot s (k + 1))).cell (k + 1) (.leaf (k + 1) ⟨key, k⟩) := by
      refine rep_leaf.mpr ⟨rfl, Nat.succ_ne_zero k, ?_, ?_⟩
      · rw [hsame]
        exact congrArg Hdr.bit hnode.1
      · have hkey : ((storeAll m log).node (k + 1)).path = key := congrArg Hdr.path hnode.1
        rw [Mem.leafAt, hsame, hkey, hnode.2]
    rw [hinv.cell_slot] at hu
    obtain ⟨q, hroot, hrep⟩ := Rep.plug (s := .root) (h := (storeAll m log).heap) hinv.rep rfl hinv.tree_nodup (by simp) hu
    rw [← hinv.heap_slot] at hroot hrep
    cases hroot
    exact hrep

/-- What the structure looks like after the call. -/
theorem insert_duplicate {ok : ℕ → Bool} {v : ℕ} (h : Quiet m g) (hok : ok m.mallocs = true)
    (hv : g.tree.map key = some v) (w : ℕ) :
    ∃ m', ∃ t : T, Returns (call ok (.insert key w) m) (.errno .ok, m') ∧ Rep m'.cell m'.root t ∧ bits.WF t 0 ∧
      t.map key = some (blockAddr m.malloced) ∧ ∀ k ≠ key, t.map k = g.tree.map k := by
  obtain ⟨k, hk⟩ : ∃ k, k = blockAddr m.malloced := ⟨_, rfl⟩
  let g₁ : Ghost := { g with made := k ::ₘ g.made, fresh := (k + 1) ::ₘ g.fresh }
  have hmem : k ∈ g₁.made := Multiset.mem_cons_self _ _
  have hfr : k + 1 ∈ g₁.fresh := Multiset.mem_cons_self _ _
  have halloc : Does (Step fun _ => False) (allocNode ok) m g k [.zalloc true] g₁ := by
    subst hk
    refine .read (.read ?_)
    rw [hok]
    exact .emit (.zalloc g) (.pure _ _ _)
  have hset : Path (Step fun _ => False) (storeAll m [.zalloc true]) g₁ [.path k key, .value k w] g₁ :=
    .cons (.held (.key hmem key)) (.single (.held (.value hmem w)))
  have hinv := (halloc.path.append hset).inv Step.inv h.toInv
  -- the walk ends at the leaf of the key
  have hget := T.get_of_map h.wf.routed hv
  obtain ⟨n, hfoc⟩ := Coding.focus_follows_of_get (insertSel_follows key) h.wf.fits hget
  have hne : g.tree ≠ .nil := by
    intro hnil
    rw [hnil] at hget
    cases hget
  obtain ⟨n', hd, hn, -⟩ := insertDive_eq key .root hinv.rep hinv.wf hne
  rw [hfoc] at hn
  obtain ⟨rfl, -⟩ := rep_leaf.mp hn
  obtain ⟨log, hlink, hrep⟩ := linkSplit_duplicate hinv hfr hn
  obtain ⟨hkey, hother⟩ := relabel_map h.wf hfoc (k + 1) k
  refine ⟨_, _, ?_, hrep, relabel_wf h.wf (k + 1), hk ▸ hkey, hother⟩
  have hroot : (storeAll m ([.zalloc true] ++ [.path k key, .value k w])).root ≠ 0 := mt (rep_zero_iff hinv.rep).mp hne
  have hinsert : ∀ fuel, g.tree.height < fuel →
      Does Stores (insertLeaf fuel key k) (storeAll m ([.zalloc true] ++ [.path k key, .value k w])) () .ok log () := by
    intro fuel hf
    refine .read ?_
    rw [if_neg hroot]
    refine .query (hd fuel hf) ?_
    rw [← List.append_nil log]
    exact .bind (Stores.does hlink) (.pure _ _ _)
  have hrun : ∀ fuel, g.tree.height < fuel → Does Stores (critbitInsert ok fuel key w) m () .ok
      ([.zalloc true] ++ (.path k key :: .value k w :: log)) () := by
    intro fuel hf
    have hany : ∀ m e, Stores m () e () := fun _ _ => trivial
    refine .bind (Stores.does halloc.run) ?_
    rw [if_neg (by rw [hk]; exact Nat.succ_ne_zero _)]
    exact .emit (hany _ _) (.emit (hany _ _) (hinsert fuel hf))
  rw [call_insert]
  refine Returns.map (a := (Errno.ok, _)) ⟨g.tree.height + 1, fun fuel hf => ?_⟩ fun r => (Ret.errno r.1, r.2)
  rw [Wr.exec_of_apply (hrun fuel hf).run]
  rfl

/-! ## What others see of it -/

/-- After a second insert of the key, a lookup and then a remove of it return the old value or the new one, and lookups
of other keys what they did before. -/
def Harmless (ok : ℕ → Bool) (m : Mem) (key : Word) (v w : ℕ) : Prop :=
  ∃ r m', Returns (call ok (.insert key w) m) (r, m') ∧
    (∃ u, Returns (call ok (.get key) m') (.value u, m') ∧ (u = v ∨ u = w)) ∧
    (∀ k ≠ key, ∃ u, Returns (call ok (.get k) m) (.value u, m) ∧ Returns (call ok (.get k) m') (.value u, m')) ∧
    ∃ u m'', Returns (call ok (.remove key) m') (.value u, m'') ∧ (u = v ∨ u = w)

theorem get_returns (hrep : Rep m.cell m.root t) (hwf : bits.WF t 0) (ok : ℕ → Bool) (k : Word) :
    Returns (call ok (.get k) m) (.value (t.map.val k), m) := by
  rw [call_get]
  exact Returns.map ⟨t.height + 1, fun fuel hf => critbitGet_eval hrep hwf k hf⟩ fun v => (Ret.value v, m)

theorem remove_returns (hrep : Rep m.cell m.root t) (hwf : bits.WF t 0) (ok : ℕ → Bool) {u : ℕ} (hu : t.map key = some u) :
    ∃ m', Returns (call ok (.remove key) m) (.value u, m') := by
  obtain ⟨log, hdo⟩ := critbitRemove_value hrep hwf hu
  rw [call_remove]
  exact ⟨_, Returns.map ⟨t.height + 1, fun fuel hf => Wr.exec_of_apply (hdo fuel hf).run⟩ fun r => (Ret.value r.1, r.2)⟩

/-- Without a block nothing happens. -/
theorem insert_fails {ok : ℕ → Bool} (hok : ok m.mallocs = false) (key : Word) (w : ℕ) :
    Returns (call ok (.insert key w) m) (.errno .ENOMEM, m.store (.zalloc false)) := by
  have hrun : ∀ fuel, critbitInsert ok fuel key w m = .ok (.ENOMEM, [.zalloc false]) := fun fuel => by
    simp [critbitInsert, allocNode, hok, Except.bind, Except.map]
  rw [call_insert]
  exact Returns.map (a := (Errno.ENOMEM, _)) ⟨0, fun fuel _ => Wr.exec_of_apply (hrun fuel)⟩ fun r => (Ret.errno r.1, r.2)

theorem Quiet.harmless_iff {ok : ℕ → Bool} {v : ℕ} (h : Quiet m g) (hv : g.tree.map key = some v) (w : ℕ) :
    Harmless ok m key v w ↔ ok m.mallocs = false ∨ blockAddr m.malloced = v ∨ blockAddr m.malloced = w := by
  have hbefore := get_returns h.rep h.wf ok
  cases hok : ok m.mallocs with
  | false =>
      refine iff_of_true ?_ (Or.inl rfl)
      have hinv : Inv (m.store (.zalloc false)) g := (Step.fail (Q := fun _ => False) g).inv h.toInv
      have hafter := get_returns hinv.rep hinv.wf ok
      obtain ⟨m'', hr⟩ := remove_returns hinv.rep hinv.wf ok hv
      refine ⟨_, _, insert_fails hok key w, ⟨v, ?_, Or.inl rfl⟩, fun k _ => ⟨_, hbefore k, hafter k⟩, v, m'', hr, Or.inl rfl⟩
      have := hafter key
      rwa [KMap.val, hv] at this
  | true =>
      obtain ⟨m', t, hins, hrep, hwf, hkey, hother⟩ := insert_duplicate h hok hv w
      have hafter := get_returns hrep hwf ok
      obtain ⟨m'', hr⟩ := remove_returns hrep hwf ok hkey
      have hget := hafter key
      rw [KMap.val, hkey] at hget
      constructor
      · rintro ⟨r, m₁, hr₁, ⟨u, hu, huv⟩, -⟩
        cases hins.unique hr₁
        cases hget.unique hu
        exact Or.inr huv
      · intro hc
        have hc := hc.resolve_left (by simp)
        refine ⟨_, _, hins, ⟨_, hget, hc⟩, fun k hk => ⟨_, hbefore k, ?_⟩, _, m'', hr, hc⟩
        have := hafter k
        rwa [KMap.val, hother k hk] at this

/-- A second insert of a key does no harm if it fails, or if the address of the new block happens to be the old value or
the new one. -/
theorem critbit_duplicate_iff {ok : ℕ → Bool} {ops : List Op} {f : KMap} (h : Reached ok ops m f) {v : ℕ}
    (hv : f key = some v) (w : ℕ) :
    Harmless ok m key v w ↔ ok m.mallocs = false ∨ blockAddr m.malloced = v ∨ blockAddr m.malloced = w := by
  obtain ⟨g, hq, rfl⟩ := h.quiet
  exact hq.harmless_iff hv w

theorem critbit_duplicate_iff_single : Harmless (fun _ => true) (single 5 7) 5 7 9 ↔
    (fun _ => true) (single 5 7).mallocs = false ∨ blockAddr (single 5 7).malloced = 7 ∨ blockAddr (single 5 7).malloced = 9 :=
  critbit_duplicate_iff (single_reached 5 7) (by simp) 9

/-- `critbit_insert(c, 5, 7)`, then `critbit_insert(c, 5, 9)`: a lookup of 5 returns 3, the address of the second block. -/
theorem critbit_duplicate_pointer : ∃ m f, Reached (fun _ => true) [.insert 5 7] m f ∧ f 5 = some 7 ∧
    ¬ Harmless (fun _ => true) m 5 7 9 := by
  refine ⟨_, _, single_reached 5 7, by simp, ?_⟩
  obtain ⟨g, hq, hmap⟩ := (single_reached 5 7).quiet
  rw [hq.harmless_iff (by rw [hmap]; simp)]
  simp [single, Storable.store, Mem.store, Mem.setNode, critbitNew, blockAddr]

end Ptok.Critbit
