import Ptok.Lib.Places
import Ptok.Tcradix.Invariant

/-!
# Who owns which node in tcradix

Nodes are in the tree or in the list of removed nodes, and those in the list are clean. `tcradix_delete` frees every one
of them once.
-/

namespace Ptok.Tcradix

open Lib

variable {Q : Word → ℕ → Prop} {l pos : ℕ} {m : Mem} {g : Ghost TOP} {ok : ℕ → Bool} {a : Addr}

/-! ## Clean nodes -/

theorem Stage.Inv.pool {s : Stage} (h : s.Inv Q m) : Pool m m.deletedNode s.ghost.pool := by
  obtain ⟨g, f⟩ := s
  cases f with
  | none =>
      have h : Tcradix.Inv Q m g := h
      exact h.pool
  | some key =>
      obtain ⟨v, -, -, -, h⟩ := h
      refine h.pool.congr fun a ha => ?_
      have h0 : a ≠ 0 := by
        rintro rfl
        exact (h.apart.2.1 0 (Multiset.mem_cons_self _ _)).1 ha
      exact (Function.update_of_ne h0 _ _).symm

theorem allocNode_null (hd : m.deletedNode = .null) : allocNode ok m =
    .ok (if ok (m.malloced + m.fails) then .node (m.malloced + 1) else .null, [.zalloc (ok (m.malloced + m.fails))]) := by
  refine Wr.bind_ok.mpr ⟨m.deletedNode, [], _, rfl, ?_, rfl⟩
  rw [hd]
  rfl

theorem allocNode_node (hd : m.deletedNode = .node a) :
    allocNode ok m = .ok (.node a, [.deletedNode ((m.node a).nodes 0), .nodes a 0 .null]) := by
  refine Wr.bind_ok.mpr ⟨m.deletedNode, [], _, rfl, ?_, rfl⟩
  rw [hd]
  rfl

/-- The node that a path leads to. -/
def Mem.walk (m : Mem) : Ptr → List (Fin 16) → Option Addr
  | .node a, [] => some a
  | .node a, i :: is => m.walk ((m.node a).nodes i) is
  | _, _ => none

def Mem.nextNode (m : Mem) : Ptr → Ptr
  | .node a => (m.node a).nodes 0
  | _ => .null

def Ptr.addr : Ptr → Option Addr
  | .node a => some a
  | _ => none

/-- The end of a path through the tree, or an entry of the list of removed nodes. -/
abbrev Place := List (Fin 16) ⊕ ℕ

/-- What is at a place. -/
def Mem.found (m : Mem) : Place → Option Addr :=
  Sum.elim (m.walk (.node 0)) fun i => (entry m.nextNode m.deletedNode i).addr

theorem walk_cons {i : Fin 16} {is : List (Fin 16)} : m.walk (.node a) (i :: is) = m.walk ((m.node a).nodes i) is := rfl

theorem walk_covers {t : T l} (hrep : Rep m t) (hok : t.OK pos) : Covers (m.walk t.ptr) t.addrs := by
  induction t generalizing pos with
  | nil => exact .zero fun is => by cases is <;> rfl
  | last b h w =>
      have hn : m.node b = h.node w := hrep
      refine .start rfl fun i is => ?_
      rw [T.ptr_last, walk_cons, hn, Hdr.node_nodes]
      rcases hok.val i with hi | ⟨v, -, hi⟩ <;> rw [hi] <;> cases is <;> rfl
  | node b h c ih =>
      refine .path rfl (fun i is => ?_) fun i => ih i (hrep.2 i) (hok.2.2 i).1
      rw [T.ptr_node, walk_cons, hrep.1, Hdr.node_nodes, T.ptrs_apply]

theorem Quiet.walk_covers (h : Quiet ok Q m g) : Covers (m.walk (.node 0)) g.tree.addrs := by
  rcases h.root with hok | hm
  · rw [← h.ptr]
    exact Tcradix.walk_covers h.rep hok
  · have hn := h.rep
    rw [hm] at hn ⊢
    have hnil : ∀ is, m.walk .null is = none := fun is => by cases is <;> rfl
    refine .path (g := fun _ => m.walk .null) rfl (fun i is => ?_) fun _ => .zero hnil
    rw [walk_cons, hn.1]
    rfl

theorem Pool.chain : ∀ {as : List Addr} {p : Ptr}, Pool m p as → Chain m.nextNode .null p (as.map .node)
  | [], _, h => h
  | a :: as, p, ⟨hp, next, hn, h⟩ => by
      subst hp
      refine ⟨rfl, by simp, ?_⟩
      have hnext : m.nextNode (.node a) = next := by simp [Mem.nextNode, hn, poolNode]
      rw [hnext]
      exact h.chain

theorem Pool.covers {as : List Addr} (h : Pool m m.deletedNode as) :
    Covers (fun i => (entry m.nextNode m.deletedNode i).addr) as := by
  have heq : (fun i => (entry m.nextNode m.deletedNode i).addr) = fun i => as[i]? := by
    funext i
    rw [h.chain.entry_eq rfl, List.getElem?_map]
    cases as[i]? <;> rfl
  rw [heq]
  exact .list as

/-- Nodes in the tree and in the list. -/
theorem Quiet.covers (h : Quiet ok Q m g) : Covers m.found (g.tree.addrs + g.pool) := h.walk_covers.sum h.pool.covers

theorem Quiet.addrs_eq (h : Quiet ok Q m g) : g.tree.addrs + g.pool + m.freed = Multiset.range (m.malloced + 1) := by
  have hwhole := h.whole
  rwa [Ghost.owned, h.held, add_zero] at hwhole

theorem Quiet.addrs_nodup (h : Quiet ok Q m g) : (g.tree.addrs + g.pool + m.freed).Nodup := by
  rw [h.addrs_eq]
  exact Multiset.nodup_range _

theorem Quiet.mem_iff (h : Quiet ok Q m g) : a ∈ g.tree.addrs + g.pool ↔ a ≤ m.malloced ∧ a ∉ m.freed := by
  have hdis : a ∈ g.tree.addrs + g.pool → a ∉ (m.freed : Multiset Addr) := fun ha =>
    Multiset.disjoint_left.mp (Multiset.nodup_add.mp h.addrs_nodup).2.2 ha
  have hr : a ∈ g.tree.addrs + g.pool + m.freed ↔ a ≤ m.malloced := by
    rw [h.addrs_eq, Multiset.mem_range, Nat.lt_succ_iff]
  rw [← hr, ← Multiset.mem_coe]
  constructor
  · exact fun ha => ⟨Multiset.mem_add.mpr (Or.inl ha), hdis ha⟩
  · exact fun ⟨ha, hf⟩ => (Multiset.mem_add.mp ha).resolve_right hf

/-! ## tcradix_delete -/

theorem deletePool_frees {as : List Addr} {p : Ptr} {fuel : ℕ} (h : Pool m p as) (hf : as.length < fuel) :
    deletePool fuel p m = .ok ((), as.map .free) := by
  induction as generalizing m p fuel with
  | nil =>
      obtain ⟨fuel, rfl⟩ := Nat.exists_eq_succ_of_ne_zero (Nat.pos_iff_ne_zero.mp hf)
      obtain rfl : p = .null := h
      rfl
  | cons a as ih =>
      obtain ⟨fuel, rfl⟩ := Nat.exists_eq_succ_of_ne_zero (Nat.ne_zero_of_lt hf)
      obtain ⟨rfl, next, hn, h⟩ := h
      have hnext : (m.node a).nodes 0 = next := by simp [hn, poolNode]
      have hrest := ih (m := m.store (.free a)) (h.congr fun _ _ => rfl) (Nat.lt_of_succ_lt_succ hf)
      rw [deletePool, List.map_cons]
      refine Wr.bind_ok.mpr ⟨m.node a, [], _, rfl, ?_, rfl⟩
      refine Wr.bind_ok.mpr ⟨(), [.free a], as.map .free, rfl, ?_, rfl⟩
      rw [hnext]
      exact hrest

/-- A root without children. -/
theorem teardown_mark {v : ℕ} (hrep : Rep m (mark v)) : Frees (mark v) (teardown TOP 0) m := by
  have hn : m.node 0 = Hdr.node ⟨TOP_EMPTY, v, 0⟩ fun _ => .null := hrep.1
  refine ⟨[0], ?_, rfl⟩
  refine Wr.bind_ok.mpr ⟨m.node 0, [], [.free 0], rfl, ?_, rfl⟩
  rw [storeAll_nil, hn, Hdr.node_onlyKey, if_pos (show TOP_EMPTY ≠ 0 by decide)]
  rfl

/-- The structure and every node that is left are freed. -/
theorem Quiet.delete (h : Quiet ok Q m g) : ∃ as : List Addr,
    Returns (fun fuel => tcradixDelete fuel m) ((), as.map .free) ∧ (as : Multiset Addr) = g.tree.addrs + g.pool := by
  have hrep : Rep (storeAll m (g.pool.map .free)) g.tree := h.rep.congr fun _ _ => by rw [storeAll_free_node]
  obtain ⟨as, hrun, has⟩ : Frees g.tree (teardown TOP 0) (storeAll m (g.pool.map .free)) := by
    rcases h.root with hok | hm
    · exact teardown_frees hrep hok h.ptr
    · rw [hm] at hrep ⊢
      exact teardown_mark hrep
  refine ⟨g.pool ++ as, ⟨g.pool.length + 1, fun fuel hf => ?_⟩, ?_⟩
  · refine Wr.bind_ok.mpr ⟨m.deletedNode, [], (g.pool ++ as).map .free, rfl, ?_, rfl⟩
    refine Wr.bind_ok.mpr ⟨(), _, _, deletePool_frees h.pool (by omega), hrun, ?_⟩
    rw [List.map_append]
  · rw [← Multiset.coe_add, has, add_comm]

/-! ## The result -/

end Ptok.Tcradix
