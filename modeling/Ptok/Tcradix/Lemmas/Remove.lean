import Ptok.Tcradix.Lemmas.Insert

/-!
# tcradix_remove

On the way down the key is cleared where it is an only key, on the way up the nodes that are left empty go to the list.
They are clean by then.
-/

namespace Ptok.Tcradix

open Lib

variable {l : ℕ} {A Q : Word → ℕ → Prop} {pos : ℕ} {m : Mem} {g g' : Ghost l} {a : Addr} {log : List Event}
  {key : Word}

/-! ## What a remove does to a subtree -/

/-- `value` is what was in `*value` before, `v` what is there afterwards, and `b` is the result. -/
structure Removed (pos : ℕ) (key : Word) (value : ℕ) (t t' : T l) (b : Bool) (v : ℕ) : Prop where
  ok : t'.OK pos
  flag : (l = 0 → ¬ t.Bare) → (b = true ↔ t'.Bare)
  keep : ∀ k ≠ key, Under l pos k → t'.get k = t.get k
  gone : t'.get key = NULL
  val : v = if t.get key = NULL then value else t.get key
  same : t.get key = NULL → t' = t
  opened : t' = t ∨ t'.only = 0

def RemoveSpec (l : ℕ) : Prop :=
  ∀ {A Q pos m pool held a key} {t : T l} (value : ℕ), Inv Q m ⟨t, pool, held⟩ → t.ptr = .node a → t.OK pos →
    Under l pos key → (∀ v, ¬ A key v) → ∃ b v log t' pool', Does (Step A Q pos) (nremove l a key value) m ⟨t, pool, held⟩
      (b, v) log ⟨t', pool', held⟩ ∧ Removed pos key value t t' b v

theorem T.Bare.addrs {t : T l} (hb : t.Bare) (hok : t.OK pos) (ha : t.ptr = .node a) : t.addrs = {a} := by
  cases t with
  | nil => cases ha
  | last b h w =>
      cases ha
      rfl
  | node b h c =>
      cases ha
      rw [T.addrs_node, hb.eq_node hok]
      simp

/-- A bare node is clean but for its value. -/
theorem T.Bare.node_eq {t : T l} (hb : t.Bare) (hok : t.OK pos) (hrep : Rep m t) (ha : t.ptr = .node a) :
    ∃ v, m.node a = { Node.zero with onlyVal := v } := by
  cases t with
  | nil => cases ha
  | last b h w =>
      cases ha
      have hn : m.node a = h.node w := hrep
      rw [hn, hb.eq_last hok]
      exact ⟨_, Node.ext rfl hb.2 rfl hb.1⟩
  | node b h c =>
      cases ha
      rw [hrep.1, hb.eq_node hok]
      exact ⟨_, Node.ext rfl hb.2 rfl hb.1⟩

section

variable {h : Hdr} {c : Fin 16 → T l} {pool : List Addr} {held : Multiset Addr}

theorem Inv.head_known (hinv : Inv Q m g) : ∀ b, m.deletedNode = .node b → b ≤ m.malloced := by
  obtain ⟨t, pool, held⟩ := g
  intro b hb
  cases pool with
  | nil => cases hb.symm.trans hinv.pool
  | cons d ds =>
      cases hb.symm.trans hinv.pool.1
      exact hinv.le_malloced (Ghost.mem_owned.mpr (Or.inr (Or.inl (by simp))))

/-- No other key is lost when the only key is cleared. -/
theorem Fair.clear (h0 : h.onlyKey ≠ 0) (hA : ∀ v, ¬ A h.onlyKey v) :
    Fair A pos (.node a h c) (.node a { h with onlyKey := 0 } c) := by
  intro k v _ hkv hv hget
  obtain ⟨rfl, rfl⟩ := T.packed_eq h0 hget hv
  exact absurd hkv (hA _)

/-- What `isEmpty` returns. -/
theorem decide_empty {w : Fin 16 → Ptr} (hn : m.node a = h.node w) :
    decide ((m.node a).nchildren = 0 ∧ (m.node a).onlyKey = 0) = decide (h.nchildren = 0 ∧ h.onlyKey = 0) := by
  rw [hn]
  rfl

/-- The emptied child goes from the tree to the list. -/
theorem dropChild_spec {i : Fin 16} {b : Addr} (hinv : Inv Q m ⟨.node a h c, pool, held⟩) (hb : (c i).Bare)
    (hok : (c i).OK (16 * pos + i.val)) (hptr : (c i).ptr = .node b) :
    ∃ log, Does (Step A Q pos) (dropChild a i b) m ⟨.node a h c, pool, held⟩ () log
      ⟨.node a { h with nchildren := h.nchildren - 1 } (Function.update c i .nil), b :: pool, held⟩ := by
  obtain ⟨v, hnode⟩ := hb.node_eq hok (hinv.rep.2 i) hptr
  have hab : b ≠ a := by
    rintro rfl
    exact T.not_mem_child hinv.apart.1 i (T.mem_addrs_of_ptr hptr)
  have h₁ : Step A Q pos m _ (.nodes a i .null) ⟨.node a h (Function.update c i .nil), pool, held + {b}⟩ :=
    Step.slot (u := .nil) hinv trivial (Multiset.notMem_zero a) (fun _ hd => by cases hd)
      (by rw [hb.addrs hok hptr, T.addrs_nil]; abel) (.slot fun k v _ _ _ => hb.get hok k)
  have hmem : b ∈ held + {b} := by simp
  have h₂ : Step A Q pos _ _ (.onlyVal b NULL) _ := .held h₁.inv (.onlyVal _) hmem fun _ => Or.inl rfl
  have h₃ : Step A Q pos _ _ (.nodes b 0 m.deletedNode) _ := .held h₂.inv (.nodes _ _) hmem hinv.head_known
  have hclean : (((m.store (.nodes a i .null)).store (.onlyVal b NULL)).store (.nodes b 0 m.deletedNode)).node b =
      poolNode m.deletedNode := by
    simp only [Mem.store, Mem.setNode_self, m.setNode_ne hab, hnode]
    rfl
  have h₄ : Step A Q pos _ _ (.deletedNode (.node b)) _ := .push h₃.inv hclean
  have h₅ : Step A Q pos _ _ (.nchildren a (h.nchildren - 1)) _ := .nchildren h₄.inv _
  exact ⟨[.nodes a i .null, .onlyVal b NULL, .nodes b 0 m.deletedNode, .deletedNode (.node b),
    .nchildren a (h.nchildren - 1)], .emit h₁ (.emit h₂ (.read (.emit h₃ (.emit h₄
      (.reads (congrArg Node.nchildren h₄.inv.rep.1) (.emit_last h₅))))))⟩

/-! ## Nodes above the last level -/

/-- The key is not there. -/
theorem Removed.refl {t : T l} {b : Bool} {value : ℕ} (hok : t.OK pos) (hb : (l = 0 → ¬ t.Bare) → (b = true ↔ t.Bare))
    (hget : t.get key = NULL) : Removed pos key value t t b value :=
  ⟨hok, hb, fun _ _ _ => rfl, hget, by rw [if_pos hget], fun _ => rfl, Or.inl rfl⟩

section

variable {u : T l} {v value : ℕ} {b : Bool}

/-- The child is not empty afterwards. -/
theorem Removed.stays (hok : (T.node a h c).OK pos) (h0 : h.onlyKey = 0) (hne : c (sl key (l + 1)) ≠ .nil)
    (hptr : u.ptr = (c (sl key (l + 1))).ptr) (hbare : ¬ u.Bare)
    (hrem : Removed (16 * pos + (sl key (l + 1)).val) key value (c (sl key (l + 1))) u b v) :
    Removed pos key value (T.node a h c) (T.node a h (Function.update c (sl key (l + 1)) u)) false v where
  ok := by
    refine ⟨by rw [T.ptrs_update_same hptr, hok.1], fun hz => absurd h0 hz, fun j => ?_⟩
    by_cases hj : j = sl key (l + 1)
    · subst hj
      rw [Function.update_self]
      exact ⟨hrem.ok, hbare⟩
    · rw [Function.update_of_ne hj]
      exact hok.2.2 j
  flag _ := by
    refine ⟨fun hf => absurd hf Bool.false_ne_true, fun hb => ?_⟩
    have hnull := used_eq_zero.mp (hok.1.symm.trans hb.1) (sl key (l + 1))
    exact absurd (T.ptr_eq_null.mp hnull) hne
  keep k hk hu := by
    rw [T.get_open h0, T.get_open h0]
    by_cases hs : sl k (l + 1) = sl key (l + 1)
    · rw [hs, Function.update_self]
      exact hrem.keep k hk (hs ▸ under_child hu)
    · rw [Function.update_of_ne hs]
  gone := by
    rw [T.get_open h0, Function.update_self]
    exact hrem.gone
  val := by
    rw [T.get_open h0]
    exact hrem.val
  same hget := by
    rw [T.get_open h0] at hget
    rw [hrem.same hget, Function.update_eq_self]
  opened := Or.inr h0

/-- The child is empty afterwards and is dropped. -/
theorem Removed.drops (hok : (T.node a h c).OK pos) (h0 : h.onlyKey = 0) (hne : c (sl key (l + 1)) ≠ .nil) (hbare : u.Bare)
    {b' : Bool} (hb' : b' = true ↔ h.nchildren - 1 = 0)
    (hrem : Removed (16 * pos + (sl key (l + 1)).val) key value (c (sl key (l + 1))) u b v) :
    Removed pos key value (T.node a h c)
      (T.node a { h with nchildren := h.nchildren - 1 } (Function.update c (sl key (l + 1)) .nil)) b' v where
  ok := by
    refine ⟨?_, fun hz => absurd h0 hz, fun j => ?_⟩
    · have hclear := used_clear (w := T.ptrs c) (i := sl key (l + 1)) fun hn => hne (T.ptr_eq_null.mp hn)
      have hcount := hok.1
      rw [T.ptrs_update, T.ptr_nil]
      show h.nchildren - 1 = _
      omega
    · by_cases hj : j = sl key (l + 1)
      · subst hj
        rw [Function.update_self]
        exact ⟨T.ok_nil, id⟩
      · rw [Function.update_of_ne hj]
        exact hok.2.2 j
  flag _ := hb'.trans ⟨fun hn => ⟨hn, h0⟩, And.left⟩
  keep k hk hu := by
    rw [T.get_open h0, T.get_open (by exact h0)]
    by_cases hs : sl k (l + 1) = sl key (l + 1)
    · rw [hs, Function.update_self, T.get_nil, ← hrem.keep k hk (hs ▸ under_child hu), hbare.get hrem.ok]
    · rw [Function.update_of_ne hs]
  gone := by rw [T.get_open (by exact h0), Function.update_self, T.get_nil]
  val := by
    rw [T.get_open h0]
    exact hrem.val
  same hget := by
    rw [T.get_open h0] at hget
    exact absurd (hrem.same hget ▸ hbare) (hok.2.2 _).2
  opened := Or.inr h0

end

theorem removeChild_spec (ih : RemoveSpec l) (value : ℕ) (hinv : Inv Q m ⟨.node a h c, pool, held⟩)
    (hok : (T.node a h c).OK pos) (hu : Under (l + 1) pos key) (hA : ∀ v, ¬ A key v) (hk : h.onlyKey ≠ 0 → h.onlyKey ≠ key) :
    ∃ b v log t' pool', Does (Step A Q pos) (removeChild (nremove l) (l + 1) a key value) m ⟨.node a h c, pool, held⟩
      (b, v) log ⟨t', pool', held⟩ ∧ Removed pos key value (T.node a h c) t' b v := by
  have hslot : (m.node a).nodes (sl key (l + 1)) = (c (sl key (l + 1))).ptr := by
    rw [hinv.rep.1, Hdr.node_nodes, T.ptrs_apply]
  have hchild : h.onlyKey ≠ 0 → (c (sl key (l + 1))).get key = NULL := by
    intro h0
    have hp := hok.2.1 h0
    by_cases hs : sl key (l + 1) = sl h.onlyKey (l + 1)
    · rw [hs]
      refine hp.copy.get_of_ne h0 (hk h0).symm (under_child hp.under) ?_
      rw [← hs]
      exact under_child hu
    · rw [hp.only _ hs, T.get_nil]
  rcases (c (sl key (l + 1))).ptr_cases with hnil | ⟨b, hb⟩
  · refine ⟨decide (h.nchildren = 0 ∧ h.onlyKey = 0), value, [], .node a h c, pool, .reads (hslot.trans (congrArg T.ptr hnil)) ?_,
      .refl hok (fun _ => decide_eq_true_iff) ?_⟩
    · exact .reads (decide_empty hinv.rep.1) (.pure _ _ _)
    · by_cases h0 : h.onlyKey = 0
      · rw [T.get_open h0, hnil, T.get_nil]
      · rw [T.get_packed h0, if_neg (hk h0)]
  · have hne : c (sl key (l + 1)) ≠ .nil := fun hn => by
      rw [hn] at hb
      cases hb
    have hunder : Ghost.under ⟨c (sl key (l + 1)), pool, held⟩ a h c (sl key (l + 1)) = ⟨.node a h c, pool, held⟩ := by
      rw [Ghost.under, Function.update_eq_self]
    have hinv' := hinv
    rw [← hunder] at hinv'
    obtain ⟨b', v, log, u, pool', hdo, hrem⟩ := ih (A := A) value hinv'.child hb (hok.2.2 _).1 (under_child hu) hA
    have hflag := hrem.flag fun _ => (hok.2.2 _).2
    have hptr : u.ptr = (c (sl key (l + 1))).ptr := Path.ptr hdo.path
    have hdo' : Does (Step A Q pos) (nremove l b key value) m ⟨.node a h c, pool, held⟩ (b', v) log
        ⟨.node a h (Function.update c (sl key (l + 1)) u), pool', held⟩ := by
      rw [← hunder]
      exact ⟨hdo.run, Path.under hdo.path hinv' fun _ _ _ hkv => hkv⟩
    cases b' with
    | false =>
        have hbare : ¬ u.Bare := fun hb => Bool.false_ne_true (hflag.mpr hb)
        refine ⟨false, v, log ++ [], _, pool', .reads (hslot.trans hb) (.bind hdo' (.pure _ _ _)), ?_⟩
        by_cases h0 : h.onlyKey = 0
        · exact hrem.stays hok h0 hne hptr hbare
        · have hv := hrem.val
          rw [if_pos (hchild h0)] at hv
          rw [hrem.same (hchild h0), Function.update_eq_self, hv]
          refine .refl hok (fun _ => ⟨fun hf => absurd hf Bool.false_ne_true, fun hb => absurd hb.2 h0⟩) ?_
          rw [T.get_packed h0, if_neg (hk h0)]
    | true =>
        have hbare : u.Bare := hflag.mp rfl
        have h0 : h.onlyKey = 0 := by
          by_contra h0
          exact (hok.2.2 _).2 (hrem.same (hchild h0) ▸ hbare)
        have hinv₁ := Path.inv hdo'.path hinv
        obtain ⟨log₂, hdo₂⟩ := dropChild_spec (A := A) (i := sl key (l + 1)) hinv₁ (by rwa [Function.update_self])
          (by rw [Function.update_self]; exact hrem.ok) (by rw [Function.update_self]; exact hptr.trans hb)
        rw [Function.update_idem] at hdo₂
        have hend := Path.inv hdo₂.path hinv₁
        refine ⟨decide (h.nchildren - 1 = 0 ∧ h.onlyKey = 0), v, log ++ (log₂ ++ []), _, b :: pool',
          .reads (hslot.trans hb) (.bind hdo' (.bind hdo₂ (.reads (decide_empty hend.rep.1) (.pure _ _ _)))),
          hrem.drops hok h0 hne hbare ?_⟩
        rw [decide_eq_true_iff, and_iff_left h0]

/-- The node was opened first. -/
theorem Removed.of_cleared {b : Bool} {v value : ℕ} {t' : T (l + 1)} (hok : (T.node a h c).OK pos) (h0 : h.onlyKey ≠ 0)
    (hrem : Removed pos h.onlyKey h.onlyVal (T.node a { h with onlyKey := 0 } c) t' b v) :
    Removed pos h.onlyKey value (T.node a h c) t' b v := by
  have hp := hok.2.1 h0
  have hget : (T.node a h c).get h.onlyKey = h.onlyVal := by rw [T.get_packed h0, if_pos rfl]
  refine ⟨hrem.ok, fun _ => hrem.flag fun hz => absurd hz (Nat.succ_ne_zero l), fun k hk hu' => ?_, hrem.gone, ?_,
    fun hn => absurd (hget.symm.trans hn) hp.val, Or.inr (hrem.opened.elim (fun he => by rw [he]; rfl) id)⟩
  · rw [hrem.keep k hk hu', T.get_packed h0, if_neg hk.symm, T.get_open rfl]
    by_cases hs : sl k (l + 1) = sl h.onlyKey (l + 1)
    · rw [hs]
      exact hp.copy.get_of_ne h0 hk (under_child hp.under) (hs ▸ under_child hu')
    · rw [hp.only _ hs, T.get_nil]
  · have hv := hrem.val
    rw [T.get_open rfl] at hv
    rw [hget, if_neg hp.val, hv]
    by_cases hn : c (sl h.onlyKey (l + 1)) = .nil
    · rw [hn, T.get_nil, if_pos rfl]
    · rw [hp.copy.get_self h0 hn, if_neg hp.val]

end

theorem nremove_succ (ih : RemoveSpec l) : RemoveSpec (l + 1) := by
  intro A Q pos m pool held a key t value hinv hptr hok hu hA
  cases t with
  | nil => cases hptr
  | node b h c =>
      cases hptr
      have hkey : (m.node a).onlyKey = h.onlyKey := by rw [hinv.rep.1, Hdr.node_onlyKey]
      have hval : (m.node a).onlyVal = h.onlyVal := by rw [hinv.rep.1, Hdr.node_onlyVal]
      by_cases hk : h.onlyKey = key ∧ key ≠ 0
      · obtain ⟨rfl, h0⟩ := hk
        have hs : Step A Q pos _ _ (.onlyKey a 0) _ := .clearKey hinv (.clear h0 hA)
        have hok₁ : (T.node a { h with onlyKey := 0 } c).OK pos := ⟨hok.1, fun hz => absurd rfl hz, hok.2.2⟩
        obtain ⟨b, v, log, t', pool', hdo, hrem⟩ := removeChild_spec ih h.onlyVal hs.inv hok₁ hu hA fun hz => absurd rfl hz
        refine ⟨b, v, [.onlyKey a 0] ++ log, t', pool', .bind (.read ?_) hdo, hrem.of_cleared hok h0⟩
        rw [if_pos ⟨hkey, h0⟩, hval]
        exact .emit hs (.pure _ _ _)
      · have hk' : h.onlyKey ≠ 0 → h.onlyKey ≠ key := by
          rintro h0 rfl
          exact hk ⟨rfl, h0⟩
        obtain ⟨b, v, log, t', pool', hdo, hrem⟩ := removeChild_spec ih value hinv hok hu hA hk'
        refine ⟨b, v, [] ++ log, t', pool', .bind (.read ?_) hdo, hrem⟩
        rw [if_neg (hkey ▸ hk)]
        exact .pure _ _ _

/-! ## The last level -/

section

variable {h : Hdr} {w : Fin 16 → Ptr} {pool : List Addr} {held : Multiset Addr}

/-- The slot of a key is emptied. -/
theorem T.OK.empty {value v : ℕ} (hok : (T.last a h w).OK pos) (hu : Under 0 pos key) (hslot : w (sl key 0) = .val v)
    {key' : Word} (hk : key' = h.onlyKey ∧ (h.onlyKey = key → key = 0) ∨ key' = 0) {b : Bool}
    (hb : b = true ↔ h.nchildren - 1 = 0 ∧ key' = 0) :
    Removed pos key value (T.last a h w)
      (T.last a ⟨key', h.onlyVal, h.nchildren - 1⟩ (Function.update w (sl key 0) .null)) b v := by
  have hv : v ≠ NULL := by
    rcases hok.val (sl key 0) with hn | ⟨v', hv', hn⟩
    · cases hn.symm.trans hslot
    · cases hn.symm.trans hslot
      exact hv'
  have hget : (T.last a h w).get key = v := by
    rw [T.get_last, hslot]
    rfl
  refine ⟨⟨?_, fun i => ?_, fun hz => ?_⟩, fun _ => hb, fun k hk' hu' => ?_, ?_, by rw [hget, if_neg hv],
    fun hn => absurd (hget.symm.trans hn) hv, Or.inr rfl⟩
  · have hclear := used_clear (w := w) (i := sl key 0) (by rw [hslot]; simp)
    have hcount := hok.count
    show h.nchildren - 1 = _
    omega
  · by_cases hi : i = sl key 0
    · rw [hi, Function.update_self]
      exact Or.inl rfl
    · rw [Function.update_of_ne hi]
      exact hok.val i
  · rcases hk with ⟨rfl, hk⟩ | rfl
    · obtain ⟨hu', hs⟩ := hok.key hz
      refine ⟨hu', ?_⟩
      rw [Function.update_of_ne]
      · exact hs
      · intro he
        have he := eq_of_sl hu' hu he
        exact hz (he.trans (hk he))
    · exact absurd rfl hz
  · rw [T.get_last, T.get_last, Function.update_of_ne fun hs => hk' (eq_of_sl hu' hu hs)]
  · rw [T.get_last, Function.update_self]
    rfl

theorem clearSlot_does {value v : ℕ} (hinv : Inv Q m ⟨.last a h w, pool, held⟩) (hu : Under 0 pos key)
    (hslot : w (sl key 0) = .val v) (hA : ∀ v, ¬ A key v) :
    Does (Step A Q pos) (clearSlot a key value) m ⟨.last a h w, pool, held⟩
      (decide (h.nchildren - 1 = 0 ∧ h.onlyKey = 0), v) [.nodes a (sl key 0) .null, .nchildren a (h.nchildren - 1)]
      ⟨.last a { h with nchildren := h.nchildren - 1 } (Function.update w (sl key 0) .null), pool, held⟩ := by
  have hn : m.node a = h.node w := hinv.rep
  have h₁ : Step A Q pos m ⟨.last a h w, pool, held⟩ (.nodes a (sl key 0) .null)
      ⟨.last a h (Function.update w (sl key 0) .null), pool, held⟩ := by
    refine .last hinv (.nodes _ _) (fun _ hb => by cases hb) ?_ (.last fun k v hk hkv _ hget => ?_)
    · simp only [Mem.store, m.setNode_self, hn]
      rfl
    · rw [Function.update_of_ne]
      · exact hget
      · intro hs
        exact hA v (eq_of_sl hk hu hs ▸ hkv)
  have h₂ : Step A Q pos (m.store (.nodes a (sl key 0) .null))
      ⟨.last a h (Function.update w (sl key 0) .null), pool, held⟩ (.nchildren a (h.nchildren - 1))
      ⟨.last a { h with nchildren := h.nchildren - 1 } (Function.update w (sl key 0) .null), pool, held⟩ := by
    refine .last h₁.inv (.nchildren _) trivial ?_ (.last fun _ _ _ _ _ hget => hget)
    have hn := h₁.inv.rep
    generalize m.store (.nodes a (sl key 0) .null) = m' at hn
    have hn : m'.node a = h.node _ := hn
    simp only [Mem.store, m'.setNode_self, hn]
    rfl
  refine .reads hn ?_
  rw [if_pos (by rw [Hdr.node_nodes, hslot]; simp), Hdr.node_nodes, hslot]
  exact .emit h₁ (.emit h₂ (.reads (decide_empty h₂.inv.rep) (.pure _ _ _)))

theorem nremove_zero : RemoveSpec 0 := by
  intro A Q pos m pool held a key t value hinv hptr hok hu hA
  cases t with
  | nil => cases hptr
  | last b h w =>
      cases hptr
      have hn : m.node a = h.node w := hinv.rep
      by_cases hk : h.onlyKey = key ∧ key ≠ 0
      · obtain ⟨rfl, h0⟩ := hk
        obtain ⟨v, hv, hslot⟩ := (hok.val (sl h.onlyKey 0)).resolve_left (hok.key h0).2
        have hs : Step A Q pos m ⟨.last a h w, pool, held⟩ (.onlyKey a 0)
            ⟨.last a { h with onlyKey := 0 } w, pool, held⟩ := by
          refine .last hinv (.onlyKey 0) (fun hz => absurd rfl hz) ?_ (.last fun _ _ _ _ _ hget => hget)
          simp only [Mem.store, m.setNode_self, hn]
          rfl
        have hdo : Does (Step A Q pos) (clearSlot a h.onlyKey h.onlyVal) (storeAll m [.onlyKey a 0]) _ _ _ _ :=
          clearSlot_does hs.inv hu hslot hA
        refine ⟨_, v, [.onlyKey a 0] ++ _, _, pool, .bind (.reads hn ?_) hdo,
          hok.empty hu hslot (Or.inr rfl) decide_eq_true_iff⟩
        rw [Hdr.node_onlyKey, if_pos ⟨rfl, h0⟩]
        exact .emit hs (.pure _ _ _)
      · have hclear : Does (Step A Q pos) (clearKey a key value) m ⟨.last a h w, pool, held⟩ value [] ⟨.last a h w, pool, held⟩ := by
          refine .reads hn ?_
          rw [Hdr.node_onlyKey, if_neg hk]
          exact .pure _ _ _
        rcases hok.val (sl key 0) with hnull | ⟨v, hv, hslot⟩
        · refine ⟨false, value, [] ++ [], _, pool, .bind hclear (.reads hn ?_), .refl hok (fun hb => ?_) ?_⟩
          · rw [Hdr.node_nodes, if_neg (not_not.mpr hnull)]
            exact .pure _ _ _
          · exact ⟨fun hf => absurd hf Bool.false_ne_true, fun hb' => absurd hb' (hb rfl)⟩
          · rw [T.get_last, hnull]
            rfl
        · refine ⟨_, v, [] ++ _, _, pool, .bind hclear (clearSlot_does hinv hu hslot hA),
            hok.empty hu hslot (Or.inl ⟨rfl, fun hk' => ?_⟩) decide_eq_true_iff⟩
          by_contra h0
          exact hk ⟨hk', h0⟩

theorem nremove_spec (l : ℕ) : RemoveSpec l := by
  induction l with
  | zero => exact nremove_zero
  | succ l ih => exact nremove_succ ih

end

end Ptok.Tcradix
