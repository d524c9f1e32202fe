import Ptok.Tcradix.Lemmas.Steps

/-!
# teardown

It frees every node of a subtree once, although it follows only the child of the only key where there is one.
-/

namespace Ptok.Tcradix

open Lib

variable {l : ℕ} {pos : ℕ} {m : Mem} {a : Addr}

@[simp] theorem storeAll_free_node (m : Mem) (as : List Addr) : (storeAll m (as.map .free)).node = m.node := by
  induction as generalizing m with
  | nil => rfl
  | cons a as ih => exact ih _

theorem storeAll_free_freed (m : Mem) (as : List Addr) : (storeAll m (as.map .free)).freed = m.freed ++ as := by
  induction as generalizing m with
  | nil => simp
  | cons a as ih =>
      refine (ih (m.store (.free a))).trans ?_
      simp [Mem.store]

/-- The nodes of the tree are freed. -/
def Frees (t : T l) (x : W Unit) (m : Mem) : Prop :=
  ∃ as : List Addr, x m = .ok ((), as.map .free) ∧ (as : Multiset Addr) = t.addrs

/-- The loop over the slots. -/
theorem teardown_slots {h : Hdr} {c : Fin 16 → T l}
    (ih : ∀ i m b, Rep m (c i) → (c i).ptr = .node b → Frees (c i) (teardown l b) m) (is : List (Fin 16))
    (hrep : Rep m (.node a h c)) : ∃ as : List Addr,
      (is.forM fun i => do
        let p ← Wr.read fun m : Mem => (m.node a).nodes i
        withChild (teardown l) p) m = .ok ((), as.map .free) ∧
      (as : Multiset Addr) = (is.map fun i => (c i).addrs).sum := by
  induction is generalizing m with
  | nil => exact ⟨[], rfl, rfl⟩
  | cons i is his =>
      have hslot : (m.node a).nodes i = (c i).ptr := by rw [hrep.1, Hdr.node_nodes, T.ptrs_apply]
      have hfirst : Frees (c i) (withChild (teardown l) ((m.node a).nodes i)) m := by
        rw [hslot]
        rcases (c i).ptr_cases with hn | ⟨b, hb⟩
        · rw [hn]
          exact ⟨[], rfl, rfl⟩
        · have hi := ih i m b (hrep.2 i) hb
          rw [hb]
          exact hi
      obtain ⟨as, hrun, has⟩ := hfirst
      have hrep' : Rep (storeAll m (as.map .free)) (.node a h c) := hrep.congr fun _ _ => by rw [storeAll_free_node]
      obtain ⟨as', hrun', has'⟩ := his hrep'
      refine ⟨as ++ as', ?_, ?_⟩
      · refine Wr.bind_ok.mpr ⟨(), as.map .free, as'.map .free, ?_, hrun', by simp⟩
        exact Wr.bind_ok.mpr ⟨_, [], _, rfl, hrun, rfl⟩
      · rw [← Multiset.coe_add, has, has', List.map_cons, List.sum_cons]

theorem teardown_frees {t : T l} (hrep : Rep m t) (hok : t.OK pos) (ha : t.ptr = .node a) : Frees t (teardown l a) m := by
  induction t generalizing m pos a with
  | nil => cases ha
  | last b h w =>
      cases ha
      exact ⟨[b], rfl, rfl⟩
  | @node l b h c ih =>
      cases ha
      have ih' : ∀ i m d, Rep m (c i) → (c i).ptr = .node d → Frees (c i) (teardown l d) m := fun i m d hr hd =>
        ih i hr (hok.2.2 i).1 hd
      have hkey : (m.node b).onlyKey = h.onlyKey := by rw [hrep.1, Hdr.node_onlyKey]
      by_cases h0 : h.onlyKey = 0
      · obtain ⟨as, hrun, has⟩ := teardown_slots ih' (List.finRange 16) hrep
        refine ⟨as ++ [b], ?_, ?_⟩
        · refine Wr.bind_ok.mpr ⟨m.node b, [], as.map .free ++ [.free b], rfl, ?_, by simp⟩
          rw [if_neg (not_not.mpr (hkey.trans h0))]
          exact Wr.bind_ok.mpr ⟨(), _, _, hrun, rfl, rfl⟩
        · rw [← Multiset.coe_add, has, T.addrs_node, Fin.sum_univ_def, Multiset.coe_singleton, add_comm,
            Multiset.singleton_add]
      · -- all other slots are empty
        have hp := hok.2.1 h0
        have hsum : ∑ i, (c i).addrs = (c (sl h.onlyKey (l + 1))).addrs := by
          refine Finset.sum_eq_single _ (fun i _ hi => ?_) (by simp)
          rw [hp.only i hi, T.addrs_nil]
        have hslot : (m.node b).nodes (sl h.onlyKey (l + 1)) = (c (sl h.onlyKey (l + 1))).ptr := by
          rw [hrep.1, Hdr.node_nodes, T.ptrs_apply]
        have hchild : Frees (c (sl h.onlyKey (l + 1))) (withChild (teardown l) (c (sl h.onlyKey (l + 1))).ptr) m := by
          rcases (c (sl h.onlyKey (l + 1))).ptr_cases with hn | ⟨d, hd⟩
          · rw [hn]
            exact ⟨[], rfl, rfl⟩
          · have hi := ih' _ m d (hrep.2 _) hd
            rw [hd]
            exact hi
        obtain ⟨as, hrun, has⟩ := hchild
        refine ⟨as ++ [b], ?_, ?_⟩
        · refine Wr.bind_ok.mpr ⟨m.node b, [], as.map .free ++ [.free b], rfl, ?_, by simp⟩
          rw [if_pos fun hz => h0 (hkey.symm.trans hz)]
          simp only [storeAll_nil, hkey, hslot]
          exact Wr.bind_ok.mpr ⟨(), _, _, hrun, rfl, rfl⟩
        · rw [← Multiset.coe_add, has, T.addrs_node, hsum, Multiset.coe_singleton, add_comm, Multiset.singleton_add]

end Ptok.Tcradix
