import Ptok.Critbit.Lemmas.Steps

/-!
# critbit_insert

The new leaf becomes the root, or it goes beside the subtree where the key leaves the tree.
-/

namespace Ptok.Critbit

open Lib

variable {m : Mem} {g : Ghost}

/-- No writer is at work. -/
structure Quiet (m : Mem) (g : Ghost) : Prop extends Inv m g where
  cut : g.cut = 0
  made : g.made = 0

theorem nodeAt_ok {n : Addr} (h : n ≠ 0) : m.nodeAt n = .ok (m.node n) := if_neg h

/-! ## The loop -/

/-- It stops at the slot where the trie's walk ends. -/
theorem insertDive_eq (key : Word) {t : T} : ∀ {n : Addr} {b : ℕ} (parent : Slot Addr (Fin 2)), Rep m.cell n t →
    bits.WF t b → t ≠ .nil →
    ∃ n', (∀ fuel, t.height < fuel → insertDive m key fuel parent n =
        .ok (Tree.slotOf (insertSel key) parent t, n')) ∧
      Rep m.cell n' (Tree.focus (insertSel key) t) ∧ Tree.focus (insertSel key) t ≠ .nil := by
  induction t with
  | nil => exact fun _ _ _ hne => absurd rfl hne
  | leaf q l =>
      intro n b parent h _ hne
      obtain ⟨-, h0, hb, -⟩ := rep_leaf.mp h
      refine ⟨n, fun fuel hf => ?_, h, hne⟩
      obtain ⟨fuel, rfl⟩ := Nat.exists_eq_succ_of_ne_zero (by omega : fuel ≠ 0)
      simp only [insertDive, nodeAt_ok h0, bind, Except.bind]
      exact if_neg fun hx => hx.1 hb
  | node q hdr c ih =>
      intro n b parent h hwf hne
      obtain ⟨rfl, h0, hb, rfl, hc⟩ := rep_node.mp h
      by_cases hp : key &&& ((m.node q).bit - 1) = (m.node q).path
      · have hsel : insertSel key (m.hdr q) c = some (dirOf ((m.node q).bit &&& key)) := if_pos hp
        have hlt := Tree.height_child_lt q (m.hdr q) c (dirOf ((m.node q).bit &&& key))
        obtain ⟨n', hd, hr, hne'⟩ := ih (dirOf ((m.node q).bit &&& key))
          (.child q (dirOf ((m.node q).bit &&& key))) (hc _) ⟨hwf.fits.2.2.2.2 _, hwf.branching.2 _⟩
          (child_ne_nil hwf.branching _)
        rw [Tree.slotOf_some hsel, Tree.focus_some hsel]
        refine ⟨n', fun fuel hf => ?_, hr, hne'⟩
        obtain ⟨fuel, rfl⟩ := Nat.exists_eq_succ_of_ne_zero (by omega : fuel ≠ 0)
        rw [← hd fuel (by omega)]
        simp only [insertDive, nodeAt_ok h0, bind, Except.bind]
        exact if_pos ⟨hb, hp⟩
      · have hsel : insertSel key (m.hdr q) c = none := if_neg hp
        rw [Tree.slotOf_none hsel, Tree.focus_none hsel]
        refine ⟨q, fun fuel hf => ?_, h, hne⟩
        obtain ⟨fuel, rfl⟩ := Nat.exists_eq_succ_of_ne_zero (by omega : fuel ≠ 0)
        simp only [insertDive, nodeAt_ok h0, bind, Except.bind]
        exact if_neg fun hx => hp hx.2

/-- What the source compares the key with. -/
theorem path_eq {n : Addr} {t : T} (key : Word) (h : Rep m.cell n t) (hne : t ≠ .nil) :
    m.nodeAt n = .ok (m.node n) ∧ bits.pathOf key t = (m.node n).path := by
  cases t with
  | nil => exact absurd rfl hne
  | leaf q l =>
      obtain ⟨-, h0, -, rfl⟩ := rep_leaf.mp h
      exact ⟨nodeAt_ok h0, rfl⟩
  | node q hdr c =>
      obtain ⟨-, h0, -, rfl, -⟩ := rep_node.mp h
      exact ⟨nodeAt_ok h0, rfl⟩

/-- Where an absent key leaves the tree there is something else. -/
theorem path_ne {t : T} {key : Word} {b : ℕ} (ht : bits.Fits t b) (hnew : t.map key = none)
    (hne : Tree.focus (insertSel key) t ≠ .nil) : bits.pathOf key (Tree.focus (insertSel key) t) ≠ key := by
  intro he
  obtain ⟨b', -, hfit⟩ := ht.focus (insertSel key)
  generalize hu : Tree.focus (insertSel key) t = u at hne he hfit
  cases u with
  | nil => exact hne rfl
  | leaf q l =>
      have hl : t.Has l := Coding.has_of_focus (by rw [hu]; rfl)
      exact (Coding.mapOf_ne_none ht.routed).mpr ⟨l, hl, he⟩ hnew
  | node q hdr c =>
      rcases insertSel_follows key hdr c hfit.1 with ⟨-, hs⟩ | ⟨hag, -⟩
      · cases (Tree.focus_eq_node hu).symm.trans hs
      · have he : hdr.path = key := he
        refine hag ?_
        rw [bits_path, he]
        exact fun _ _ => rfl

/-! ## The inner half -/

/-- The stores into it before it is linked. -/
def splitLog (key path : Word) (a k n : Addr) : List Event :=
  [.slot (.child a (dirOf (key &&& splitBit path key))) k, .slot (.child a (1 - dirOf (key &&& splitBit path key))) n,
    .bit a (splitBit path key), .path a (key &&& (splitBit path key - 1))]

theorem storeAll_splitLog (key path : Word) (a k n : Addr) (m : Mem) :
    storeAll m (splitLog key path a k n) = m.setNode a fun x =>
      { child := Function.update (Function.update x.child (dirOf (key &&& splitBit path key)) k)
          (1 - dirOf (key &&& splitBit path key)) n
        path := key &&& (splitBit path key - 1)
        bit := splitBit path key } := by
  simp [splitLog, Storable.store, Mem.store, Mem.setNode]

/-- Below it are the leaf and the subtree that was there. -/
theorem splitLog_rep {key path : Word} {a k n : Addr} {old : T} (hat : path ≠ key) (hold : Rep m.cell n old)
    (ha : a ∉ old.nodes) (hal : a ∉ old.leaves) (ha0 : a ≠ 0) (hk0 : k ≠ 0) (hak : k ≠ a) (hbit : (m.node k).bit = 0) :
    Rep (storeAll m (splitLog key path a k n)).cell a (splitTree a path key k (m.leafAt k) old) := by
  have hok := splitHdr_ok hat
  obtain ⟨hdir, hother⟩ := dirOf_splitBit hat
  have hne := (splitHdr_first hat).2
  have hself : (storeAll m (splitLog key path a k n)).node a =
      ⟨Function.update (Function.update (m.node a).child (bits.dig key (bits.pos (splitHdr path key))) k)
        (bits.dig path (bits.pos (splitHdr path key))) n, (splitHdr path key).path, (splitHdr path key).bit⟩ := by
    rw [storeAll_splitLog, ← hother, ← hdir]
    exact Function.update_self _ _ _
  have hframe : ∀ {b}, b ≠ a → (storeAll m (splitLog key path a k n)).node b = m.node b := by
    intro b hb
    rw [storeAll_splitLog]
    exact Function.update_of_ne hb _ _
  generalize storeAll m (splitLog key path a k n) = m' at hself hframe
  refine rep_node.mpr ⟨rfl, ha0, ?_, ?_, fun i => ?_⟩
  · rw [hself]
    exact bit_ne_zero hok
  · rw [Mem.hdr, hself]
  · rw [hself]
    dsimp only
    by_cases hi : i = bits.dig path (bits.pos (splitHdr path key))
    · subst hi
      rw [Function.update_self, Function.update_self]
      refine hold.frame (fun p hp => ?_) (fun p hp => ?_) fun p hp => ?_
      · rwa [cell_eq_nil] at hp ⊢
      · exact cell_congr (hframe fun he => ha (he ▸ hp))
      · exact cell_congr (hframe fun he => hal (he ▸ hp))
    · rw [Function.update_of_ne hi, Function.update_of_ne hi]
      have hcase : ∀ i j k : Fin 2, j ≠ k → i ≠ j → i = k := by decide
      obtain rfl := hcase _ _ _ hne hi
      rw [Function.update_self, Function.update_self]
      refine rep_leaf.mpr ⟨rfl, hk0, ?_, ?_⟩
      · rw [hframe hak, hbit]
      · simp only [Mem.leafAt, hframe hak]

theorem linkSplit_spec {Q : Leaf → Prop} {key : Word} {k n : Addr} {fresh : Multiset Addr} (h : Inv m g)
    (hq : Q (m.leafAt k)) (hcut : g.cut = 0)
    (hmade : g.made = {k}) (hfresh : g.fresh = (k + 1) ::ₘ fresh) (hkey : (m.node k).path = key)
    (hnew : g.tree.map key = none) (hn : Rep m.cell n (Tree.focus (insertSel key) g.tree))
    (hne : Tree.focus (insertSel key) g.tree ≠ .nil) :
    ∃ log g', Does (Step Q) (linkSplit key k (Tree.slotOf (insertSel key) .root g.tree) n) m g () log g' ∧
      Quiet (storeAll m log) g' ∧ g'.tree.map = g.tree.map.bind key (m.leafAt k).value := by
  obtain ⟨hnode, hpath⟩ := path_eq key hn hne
  have hat := path_ne h.wf.fits hnew hne
  rw [hpath] at hat
  have hk : k ∈ g.made := hmade ▸ Multiset.mem_singleton_self k
  have ha : k + 1 ∈ g.fresh := hfresh ▸ Multiset.mem_cons_self _ _
  have hmade' : g.made = k ::ₘ 0 := hmade
  have hkl := h.made_leaf hk
  have hai := h.fresh_inner ha
  -- the inner half is filled
  let log := splitLog key (m.node n).path (k + 1) k n
  have hheld : Path (Step Q) m g log g :=
    .cons (.held (.child ha _ _)) (.cons (.held (.child ha _ _)) (.cons (.held (.bit ha _)) (.single (.held (.path ha _)))))
  have hlog : storeAll m log = _ := storeAll_splitLog key (m.node n).path (k + 1) k n m
  have hsame : (storeAll m log).node k = m.node k := by
    rw [hlog]
    exact Function.update_of_ne (Nat.succ_ne_self k).symm _ _
  have hleaf : (storeAll m log).leafAt k = m.leafAt k := by simp only [Mem.leafAt, hsame]
  have hrep : Rep (storeAll m log).cell (k + 1) (splitTree (k + 1) (m.node n).path key k ((storeAll m log).leafAt k)
      (Tree.focus (insertSel key) g.tree)) := by
    rw [hleaf]
    refine splitLog_rep hat hn (fun hin => ?_) (fun hin => ?_) hai.ne_zero (ne_zero_of_leaf hkl)
      (Nat.succ_ne_self k).symm (h.leafBit k hkl)
    · exact (h.tree_node (Tree.mem_nodes_focus hin)).1.fresh ha
    · have hmem := (Tree.sub_focus (insertSel key) g.tree).mem_leaves hin
      exact (h.placed (Multiset.mem_add.mpr (Or.inl hmem))).1.fresh ha
  -- and linked
  have hs := Step.linkSplit (m := storeAll m log) (hleaf ▸ hq) hne (hsame ▸ hkey) hpath hat hmade' hfresh hrep
  have hinv := hs.inv (hheld.inv Step.inv h)
  refine ⟨log ++ [.slot (Tree.slotOf (insertSel key) .root g.tree) (k + 1)], _, ⟨?_, hheld.append (.single hs)⟩, ?_, ?_⟩
  · simp [linkSplit, hnode, Except.bind, Except.map, log, splitLog, splitBit]
  · rw [storeAll_append]
    exact ⟨hinv, hcut, rfl⟩
  · refine (Coding.mapOf_update (l := m.leafAt k) h.wf.routed hinv.wf.routed (Coding.has_plug_of fun l => ?_)).trans ?_
    · rw [hleaf]
      exact splitTree_has hat l
    · show KMap.bind _ (m.node k).path _ = _
      rw [hkey]
      rfl

/-! ## The call -/

/-- What an insert of an absent key does to the map; `b` says whether its allocation succeeded. -/
inductive Inserted (f : KMap) (key : Word) (value : ℕ) : Bool → Errno → KMap → Prop
  | fail : Inserted f key value false .ENOMEM f
  | new : Inserted f key value true .ok (f.bind key value)

theorem insertLeaf_spec {Q : Leaf → Prop} {key : Word} {k : Addr} {fresh : Multiset Addr} (h : Inv m g)
    (hq : Q (m.leafAt k)) (hcut : g.cut = 0)
    (hmade : g.made = {k}) (hfresh : g.fresh = (k + 1) ::ₘ fresh) (hkey : (m.node k).path = key)
    (hnew : g.tree.map key = none) :
    ∃ log g', (∀ fuel, g.tree.height < fuel → Does (Step Q) (insertLeaf fuel key k) m g .ok log g') ∧
      Quiet (storeAll m log) g' ∧ g'.tree.map = g.tree.map.bind key (m.leafAt k).value := by
  by_cases hempty : m.root = 0
  · have hnil := (rep_zero_iff h.rep).mp hempty
    have hs := Step.linkRoot (m := m) hq hnil (show g.made = k ::ₘ 0 from hmade)
    refine ⟨[.slot .root k], _, fun fuel _ => .read ?_, ⟨hs.inv h, hcut, rfl⟩, ?_⟩
    · rw [if_pos hempty]
      exact .emit hs (.pure _ _ _)
    · rw [hnil]
      refine (Coding.mapOf_update (t := .nil) (l := m.leafAt k) trivial (hs.inv h).wf.routed fun l' => ?_).trans ?_
      · simp [eq_comm]
      · show KMap.bind _ (m.node k).path _ = _
        rw [hkey]
        rfl
  · have hne : g.tree ≠ .nil := fun hn => hempty ((rep_zero_iff h.rep).mpr hn)
    obtain ⟨n, hd, hn, hne⟩ := insertDive_eq key .root h.rep h.wf hne
    obtain ⟨log, g', hdo, hquiet, hmap⟩ := linkSplit_spec h hq hcut hmade hfresh hkey hnew hn hne
    refine ⟨log, g', fun fuel hf => .read ?_, hquiet, hmap⟩
    rw [if_neg hempty]
    refine .query (hd fuel hf) ?_
    rw [← List.append_nil log]
    exact .bind hdo (.pure _ _ _)

/-- The stores keep to the steps one by one, and the map has one more key. -/
theorem critbitInsert_spec (h : Quiet m g) (ok : ℕ → Bool) {key : Word} (value : ℕ) (hnew : g.tree.map key = none) :
    ∃ e log g', (∀ fuel, g.tree.height < fuel →
        Does (Step (· = ⟨key, value⟩)) (critbitInsert ok fuel key value) m g e log g') ∧
      Quiet (storeAll m log) g' ∧ Inserted g.tree.map key value (ok m.mallocs) e g'.tree.map := by
  cases hok : ok m.mallocs with
  | false =>
      have halloc : Does (Step (· = ⟨key, value⟩)) (allocNode ok) m g 0 [.zalloc false] g := by
        refine .read (.read ?_)
        rw [hok]
        exact .emit (.fail g) (.pure _ _ _)
      exact ⟨.ENOMEM, _, g, fun fuel _ => .bind halloc (.pure _ _ _), ⟨halloc.path.inv Step.inv h.toInv, h.cut, h.made⟩, .fail⟩
  | true =>
      -- the leaf with its key and value
      obtain ⟨k, hk⟩ : ∃ k, k = blockAddr m.malloced := ⟨_, rfl⟩
      let g₁ : Ghost := { g with made := k ::ₘ g.made, fresh := (k + 1) ::ₘ g.fresh }
      have halloc : Does (Step (· = ⟨key, value⟩)) (allocNode ok) m g k [.zalloc true] g₁ := by
        subst hk
        refine .read (.read ?_)
        rw [hok]
        exact .emit (.zalloc g) (.pure _ _ _)
      have hmem : k ∈ g₁.made := Multiset.mem_cons_self _ _
      have hfill : ∀ {m₁}, Path (Step (· = ⟨key, value⟩)) m₁ g₁ [.path k key, .value k value] g₁ := fun {m₁} =>
        .cons (.held (.key hmem key)) (.single (.held (.value hmem value)))
      let m₁ := storeAll m ([.zalloc true] ++ [.path k key, .value k value])
      have hinv : Inv m₁ g₁ := (halloc.path.append hfill).inv Step.inv h.toInv
      have hleaf : m₁.leafAt k = ⟨key, value⟩ := by
        simp [m₁, Storable.store, Mem.store, Mem.setNode, Mem.leafAt]
      have hmade : g₁.made = {k} := by
        show k ::ₘ g.made = _
        rw [h.made]
        rfl
      obtain ⟨log, g', hdo, hquiet, hmap⟩ := insertLeaf_spec (Q := (· = ⟨key, value⟩)) hinv hleaf h.cut hmade rfl
        (congrArg Leaf.key hleaf) hnew
      refine ⟨.ok, [.zalloc true] ++ ([.path k key, .value k value] ++ log), g', fun fuel hf => .bind halloc ?_, ?_, ?_⟩
      · rw [if_neg (ne_zero_of_leaf (hinv.made_leaf hmem))]
        exact .emit (.held (.key hmem key)) (.emit (.held (.value hmem value)) (hdo fuel hf))
      · rwa [← List.append_assoc, storeAll_append]
      · rw [hmap, hleaf]
        exact .new

end Ptok.Critbit
