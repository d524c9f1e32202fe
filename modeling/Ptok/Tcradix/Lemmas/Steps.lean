import Ptok.Lib.Ghost
import Ptok.Tcradix.Lemmas.Tree

/-!
# Stores of a writer

A writer is at work on a subtree, with a pool of removed nodes and with nodes that are nowhere linked. `Step` is what one
of its stores may do, to the memory and for readers. A step on a subtree is a step on the tree around it.
-/

namespace Ptok.Tcradix

open Lib

/-- What a writer is at work on. -/
structure Ghost (l : ℕ) where
  tree : T l
  /-- the list of removed nodes -/
  pool : List Addr
  /-- nodes that are neither in the tree nor in the list -/
  held : Multiset Addr

def Ghost.owned {l : ℕ} (g : Ghost l) : Multiset Addr := g.tree.addrs + g.pool + g.held

/-- A removed node: clean but for the link. -/
def poolNode (next : Ptr) : Node := { Node.zero with nodes := Function.update Node.zero.nodes 0 next }

/-- The list of removed nodes that starts at a pointer. -/
def Pool (m : Mem) : Ptr → List Addr → Prop
  | p, [] => p = .null
  | p, a :: as => p = .node a ∧ ∃ next, m.node a = poolNode next ∧ Pool m next as

/-- What holds of all nodes, wherever they are; `Q` says which values belong to which keys. -/
structure Heap (Q : Word → ℕ → Prop) (m : Mem) : Prop where
  known : ∀ a ≤ m.malloced, ∀ i b, (m.node a).nodes i = .node b → b ≤ m.malloced
  paired : ∀ a ≤ m.malloced, (m.node a).onlyKey ≠ 0 →
    (m.node a).onlyVal = NULL ∨ Q (m.node a).onlyKey (m.node a).onlyVal

structure Inv {l : ℕ} (Q : Word → ℕ → Prop) (m : Mem) (g : Ghost l) : Prop extends Heap Q m where
  rep : Rep m g.tree
  pool : Pool m m.deletedNode g.pool
  owned : g.owned + m.freed ≤ Multiset.range (m.malloced + 1)

/-- A reader of the key that stands at the first tree, or below it where it is not compressed, may go on in the second
one. -/
def T.Stays (k : Word) : {l : ℕ} → T l → T l → Prop
  | _, .nil, _ => True
  | _, .last a _ _, t' => t'.ptr = .node a
  | _, @T.node l a h c, t' => ∃ h' c', t' = .node a h' c' ∧ h'.onlyVal = h.onlyVal ∧
      (h.onlyKey = 0 → h'.onlyKey = 0 ∧ Stays k (c (sl k (l + 1))) (c' (sl k (l + 1))))

/-- The keys and values that `A` names are not lost to readers. -/
def Fair {l : ℕ} (A : Word → ℕ → Prop) (pos : ℕ) (t t' : T l) : Prop :=
  ∀ k v, Under l pos k → A k v → v ≠ NULL → t.get k = v → t'.get k = v ∧ t.Stays k t'

structure Step {l : ℕ} (A Q : Word → ℕ → Prop) (pos : ℕ) (m : Mem) (g : Ghost l) (e : Event) (g' : Ghost l) : Prop where
  inv : Inv Q (m.store e) g'
  ptr : g'.tree.ptr = g.tree.ptr
  total : g'.owned + (m.store e).freed + Multiset.range (m.malloced + 1) =
    g.owned + m.freed + Multiset.range ((m.store e).malloced + 1)
  frame : ∀ a ≤ m.malloced, a ∉ g.owned → (m.store e).node a = m.node a
  status : (m.store e).writeStatus = m.writeStatus
  fair : Fair A pos g.tree g'.tree

variable {l : ℕ} {A A' Q : Word → ℕ → Prop} {pos : ℕ} {m m' : Mem} {g g' : Ghost l} {e : Event} {a : Addr}

theorem T.Stays.refl (k : Word) (t : T l) : t.Stays k t := by
  induction t with
  | nil => trivial
  | last a h w => rfl
  | node a h c ih => exact ⟨h, c, rfl, rfl, fun h0 => ⟨h0, ih _⟩⟩

theorem Fair.refl (t : T l) : Fair A pos t t := fun k _ _ _ _ hv => ⟨hv, .refl k t⟩

/-! ## Owned nodes -/

theorem Inv.nodup (h : Inv Q m g) : (g.owned + (m.freed : Multiset Addr)).Nodup :=
  Multiset.nodup_of_le h.owned (Multiset.nodup_range _)

theorem Inv.le_malloced (h : Inv Q m g) (ha : a ∈ g.owned) : a ≤ m.malloced := by
  have hr := Multiset.mem_of_le h.owned (Multiset.mem_add.mpr (Or.inl ha))
  exact Nat.le_of_lt_succ (Multiset.mem_range.mp hr)

theorem Ghost.mem_owned : a ∈ g.owned ↔ a ∈ g.tree.addrs ∨ a ∈ g.pool ∨ a ∈ g.held := by
  simp [Ghost.owned, or_assoc]

/-- What belongs to the tree, to the list and to neither of them is apart. -/
theorem Inv.apart (h : Inv Q m g) :
    g.tree.addrs.Nodup ∧ (∀ a ∈ g.tree.addrs, a ∉ g.pool ∧ a ∉ g.held) ∧ ∀ a ∈ g.pool, a ∉ g.held := by
  obtain ⟨htp, -, hdis⟩ := Multiset.nodup_add.mp (Multiset.nodup_add.mp h.nodup).1
  obtain ⟨ht, -, hdis'⟩ := Multiset.nodup_add.mp htp
  refine ⟨ht, fun a ha => ⟨fun hp => ?_, ?_⟩, fun a ha => ?_⟩
  · exact Multiset.disjoint_left.mp hdis' ha hp
  · exact Multiset.disjoint_left.mp hdis (Multiset.mem_add.mpr (Or.inl ha))
  · exact Multiset.disjoint_left.mp hdis (Multiset.mem_add.mpr (Or.inr ha))

theorem owned_of_total {s s' f f' : Multiset Addr} {n n' : ℕ} (h : s + f ≤ Multiset.range n)
    (ht : s' + f' + Multiset.range n = s + f + Multiset.range n') : s' + f' ≤ Multiset.range n' := by
  have hle : s + f + Multiset.range n' ≤ Multiset.range n + Multiset.range n' := add_le_add_left h _
  rw [← ht, add_comm (Multiset.range n)] at hle
  exact le_of_add_le_add_right hle

theorem Pool.congr : ∀ {as : List Addr} {p : Ptr}, Pool m p as → (∀ a ∈ as, m'.node a = m.node a) → Pool m' p as
  | [], _, h, _ => h
  | a :: as, _, ⟨hp, next, hn, h⟩, he =>
      ⟨hp, next, (he a (by simp)).trans hn, Pool.congr h fun b hb => he b (by simp [hb])⟩

/-! ## Stores to one node -/

/-- It stores to a field of the node. -/
inductive Event.At (a : Addr) : Event → Prop
  | nodes (i : Fin 16) (p : Ptr) : At a (.nodes a i p)
  | onlyKey (w : Word) : At a (.onlyKey a w)
  | onlyVal (v : ℕ) : At a (.onlyVal a v)
  | nchildren (n : ℕ) : At a (.nchildren a n)

/-- It keeps what holds of all nodes. -/
def Event.Fed (Q : Word → ℕ → Prop) (m : Mem) : Event → Prop
  | .nodes _ _ p => ∀ b, p = .node b → b ≤ m.malloced
  | .onlyKey a w => w ≠ 0 → (m.node a).onlyVal = NULL ∨ Q w (m.node a).onlyVal
  | .onlyVal a v => (m.node a).onlyKey ≠ 0 → v = NULL ∨ Q (m.node a).onlyKey v
  | _ => True

theorem Mem.setNode_self (m : Mem) (a : Addr) (f : Node → Node) : (m.setNode a f).node a = f (m.node a) :=
  Function.update_self _ _ _

theorem Mem.setNode_ne (m : Mem) {a b : Addr} (h : b ≠ a) (f : Node → Node) : (m.setNode a f).node b = m.node b :=
  Function.update_of_ne h _ _

theorem Mem.setNode_setNode (m : Mem) (a : Addr) (f f' : Node → Node) :
    (m.setNode a f).setNode a f' = m.setNode a (f' ∘ f) := by
  simp [Mem.setNode]

theorem Mem.setNode_congr (m : Mem) {a : Addr} {f f' : Node → Node} (h : f (m.node a) = f' (m.node a)) :
    m.setNode a f = m.setNode a f' := by
  simp [Mem.setNode, h]

@[simp] theorem Mem.setNode_malloced (m : Mem) (a : Addr) (f : Node → Node) : (m.setNode a f).malloced = m.malloced := rfl

namespace Event.At

variable (h : e.At a)

include h

theorem node_ne {b : Addr} (hb : b ≠ a) : (m.store e).node b = m.node b := by
  cases h <;> simp only [Mem.store, m.setNode_ne hb]

theorem malloced : (m.store e).malloced = m.malloced := by cases h <;> rfl

theorem freed : (m.store e).freed = m.freed := by cases h <;> rfl

theorem deletedNode : (m.store e).deletedNode = m.deletedNode := by cases h <;> rfl

theorem writeStatus : (m.store e).writeStatus = m.writeStatus := by cases h <;> rfl

end Event.At

theorem Heap.setNode (h : Heap Q m) {f : Node → Node}
    (hknown : a ≤ m.malloced → ∀ i b, (f (m.node a)).nodes i = .node b → b ≤ m.malloced)
    (hpaired : a ≤ m.malloced → (f (m.node a)).onlyKey ≠ 0 →
      (f (m.node a)).onlyVal = NULL ∨ Q (f (m.node a)).onlyKey (f (m.node a)).onlyVal) : Heap Q (m.setNode a f) where
  known := by
    intro b hb
    by_cases hba : b = a
    · subst hba
      rw [m.setNode_self]
      exact hknown hb
    · rw [m.setNode_ne hba]
      exact h.known b hb
  paired := by
    intro b hb
    by_cases hba : b = a
    · subst hba
      rw [m.setNode_self]
      exact hpaired hb
    · rw [m.setNode_ne hba]
      exact h.paired b hb

theorem Heap.store (h : Heap Q m) (he : e.Fed Q m) : Heap Q (m.store e) := by
  cases e with
  | nodes a i p =>
      simp only [Mem.store]
      refine h.setNode (fun ha j b hb => ?_) fun ha => h.paired a ha
      by_cases hj : j = i
      · subst hj
        exact he b (by simpa using hb)
      · simp only [Function.update_of_ne hj] at hb
        exact h.known a ha j b hb
  | onlyKey a w =>
      simp only [Mem.store]
      exact h.setNode (fun ha => h.known a ha) fun _ => he
  | onlyVal a v =>
      simp only [Mem.store]
      exact h.setNode (fun ha => h.known a ha) fun _ => he
  | nchildren a n =>
      simp only [Mem.store]
      exact h.setNode (fun ha => h.known a ha) fun ha => h.paired a ha
  | zalloc ok =>
      cases ok with
      | false => exact ⟨h.known, h.paired⟩
      | true =>
          constructor
          · intro a ha i b hb
            by_cases hn : a = m.malloced + 1
            · subst hn
              simp [Mem.store, Node.zero] at hb
            · simp only [Mem.store, Function.update_of_ne hn] at hb ha ⊢
              exact (h.known a (by omega) i b hb).trans (Nat.le_succ _)
          · intro a ha hk
            by_cases hn : a = m.malloced + 1
            · subst hn
              simp [Mem.store, Node.zero] at hk
            · simp only [Mem.store, Function.update_of_ne hn] at hk ha ⊢
              exact h.paired a (by omega) hk
  | writeStatus w => exact ⟨h.known, h.paired⟩
  | deletedNode p => exact ⟨h.known, h.paired⟩
  | free a => exact ⟨h.known, h.paired⟩

/-! ## Steps -/

theorem Step.of (h : Inv Q m g) (hfed : e.Fed Q m) (hrep : Rep (m.store e) g'.tree)
    (hpool : Pool (m.store e) (m.store e).deletedNode g'.pool) (hptr : g'.tree.ptr = g.tree.ptr)
    (htotal : g'.owned + (m.store e).freed + Multiset.range (m.malloced + 1) =
      g.owned + m.freed + Multiset.range ((m.store e).malloced + 1))
    (hframe : ∀ a ≤ m.malloced, a ∉ g.owned → (m.store e).node a = m.node a)
    (hstatus : (m.store e).writeStatus = m.writeStatus)
    (hfair : Fair A pos g.tree g'.tree) : Step A Q pos m g e g' where
  inv := ⟨h.toHeap.store hfed, hrep, hpool, owned_of_total h.owned htotal⟩
  ptr := hptr
  total := htotal
  frame := hframe
  status := hstatus
  fair := hfair

/-- A store to a node that is not in the list. -/
theorem Step.at {t' : T l} {held' : Multiset Addr} (h : Inv Q m g) (he : e.At a) (ha : a ∈ g.owned) (hp : a ∉ g.pool)
    (hfed : e.Fed Q m) (hrep : Rep (m.store e) t') (hptr : t'.ptr = g.tree.ptr)
    (hown : t'.addrs + held' = g.tree.addrs + g.held) (hfair : Fair A pos g.tree t') :
    Step A Q pos m g e ⟨t', g.pool, held'⟩ := by
  have hne : ∀ {b}, b ∉ g.owned → b ≠ a := by
    rintro b hb rfl
    exact hb ha
  apply Step.of h hfed hrep ?_ hptr ?_ (fun b _ hb => he.node_ne (hne hb)) he.writeStatus hfair
  · rw [he.deletedNode]
    refine h.pool.congr fun b hb => he.node_ne ?_
    rintro rfl
    exact hp hb
  · have htree : t'.addrs + (g.pool : Multiset Addr) + held' = g.tree.addrs + g.pool + g.held := by
      rw [add_right_comm, hown, add_right_comm]
    rw [he.malloced, he.freed, Ghost.owned, Ghost.owned, htree]

/-- A store to a node that nobody else knows of. -/
theorem Step.held (h : Inv Q m g) (he : e.At a) (ha : a ∈ g.held) (hfed : e.Fed Q m) : Step A Q pos m g e g := by
  obtain ⟨-, htree, hpool⟩ := h.apart
  refine Step.at h he (Ghost.mem_owned.mpr (Or.inr (Or.inr ha))) (fun hp => hpool a hp ha) hfed ?_ rfl rfl (Fair.refl _)
  refine h.rep.congr fun b hb => he.node_ne ?_
  rintro rfl
  exact (htree b hb).2 ha

section

variable {t : T l} {pool : List Addr} {held : Multiset Addr}

theorem Step.free (h : Inv Q m ⟨t, pool, held + {a}⟩) : Step A Q pos m ⟨t, pool, held + {a}⟩ (.free a) ⟨t, pool, held⟩ := by
  refine Step.of h trivial (h.rep.congr fun _ _ => rfl) (h.pool.congr fun _ _ => rfl) rfl ?_ (fun _ _ _ => rfl) rfl
    (Fair.refl _)
  simp only [Mem.store, Ghost.owned, ← Multiset.coe_add, Multiset.coe_singleton]
  abel

theorem Step.zallocFail (h : Inv Q m g) : Step A Q pos m g (.zalloc false) g :=
  Step.of h trivial (h.rep.congr fun _ _ => rfl) (h.pool.congr fun _ _ => rfl) rfl rfl (fun _ _ _ => rfl) rfl
    (Fair.refl _)

theorem Step.zalloc (h : Inv Q m ⟨t, pool, held⟩) :
    Step A Q pos m ⟨t, pool, held⟩ (.zalloc true) ⟨t, pool, held + {m.malloced + 1}⟩ := by
  have hne : ∀ b ≤ m.malloced, (m.store (.zalloc true)).node b = m.node b := fun b hb =>
    Function.update_of_ne (Nat.ne_of_lt (Nat.lt_succ_of_le hb)) _ _
  refine Step.of h trivial ?_ ?_ rfl ?_ (fun b hb _ => hne b hb) rfl (Fair.refl _)
  · exact h.rep.congr fun b hb => hne b (h.le_malloced (Ghost.mem_owned.mpr (Or.inl hb)))
  · exact h.pool.congr fun b hb => hne b (h.le_malloced (Ghost.mem_owned.mpr (Or.inr (Or.inl hb))))
  · simp only [Mem.store, Ghost.owned, Multiset.range_succ (m.malloced + 1), ← Multiset.singleton_add]
    abel

/-- The first node of the list is taken out. -/
theorem Step.pop (h : Inv Q m ⟨t, a :: pool, held⟩) :
    Step A Q pos m ⟨t, a :: pool, held⟩ (.deletedNode ((m.node a).nodes 0)) ⟨t, pool, held + {a}⟩ := by
  obtain ⟨-, next, hn, hp⟩ := h.pool
  have hnext : (m.node a).nodes 0 = next := by
    rw [hn]
    rfl
  refine Step.of h trivial (h.rep.congr fun _ _ => rfl) ?_ rfl ?_ (fun _ _ _ => rfl) rfl (Fair.refl _)
  · rw [hnext]
    exact hp.congr fun _ _ => rfl
  · simp only [Mem.store, Ghost.owned, ← Multiset.cons_coe, ← Multiset.singleton_add]
    abel

/-- A node is put in front of the list. -/
theorem Step.push (h : Inv Q m ⟨t, pool, held + {a}⟩) (hn : m.node a = poolNode m.deletedNode) :
    Step A Q pos m ⟨t, pool, held + {a}⟩ (.deletedNode (.node a)) ⟨t, a :: pool, held⟩ := by
  refine Step.of h trivial (h.rep.congr fun _ _ => rfl) ?_ rfl ?_ (fun _ _ _ => rfl) rfl (Fair.refl _)
  · exact ⟨rfl, _, hn, h.pool.congr fun _ _ => rfl⟩
  · simp only [Mem.store, Ghost.owned, ← Multiset.cons_coe, ← Multiset.singleton_add]
    abel

end

/-! ### Stores to the top node -/

section

variable {h h' : Hdr} {c : Fin 16 → T l} {i : Fin 16} {u : T l} {pool : List Addr} {held held' : Multiset Addr}

theorem Step.header (hinv : Inv Q m ⟨.node a h c, pool, held⟩) (he : e.At a) (hfed : e.Fed Q m)
    (hn : (m.store e).node a = h'.node (T.ptrs c)) (hfair : Fair A pos (.node a h c) (.node a h' c)) :
    Step A Q pos m ⟨.node a h c, pool, held⟩ e ⟨.node a h' c, pool, held⟩ := by
  obtain ⟨hnd, htree, -⟩ := hinv.apart
  have ha : a ∈ (T.node a h c).addrs := Multiset.mem_cons_self _ _
  refine Step.at hinv he (Ghost.mem_owned.mpr (Or.inl ha)) (htree a ha).1 hfed ⟨hn, fun j => ?_⟩ rfl rfl hfair
  refine (hinv.rep.2 j).congr fun b hb => he.node_ne ?_
  rintro rfl
  exact T.not_mem_child hnd j hb

theorem Step.slot (hinv : Inv Q m ⟨.node a h c, pool, held⟩) (hu : Rep m u) (hout : a ∉ u.addrs)
    (hknown : ∀ b, u.ptr = .node b → b ≤ m.malloced) (hown : u.addrs + held' = (c i).addrs + held)
    (hfair : Fair A pos (.node a h c) (.node a h (Function.update c i u))) :
    Step A Q pos m ⟨.node a h c, pool, held⟩ (.nodes a i u.ptr) ⟨.node a h (Function.update c i u), pool, held'⟩ := by
  obtain ⟨hnd, htree, -⟩ := hinv.apart
  have ha : a ∈ (T.node a h c).addrs := Multiset.mem_cons_self _ _
  have he : (Event.nodes a i u.ptr).At a := .nodes i u.ptr
  refine Step.at hinv he (Ghost.mem_owned.mpr (Or.inl ha)) (htree a ha).1 hknown ⟨?_, fun j => ?_⟩ rfl ?_ hfair
  · simp only [Mem.store, m.setNode_self, hinv.rep.1, T.ptrs_update]
    rfl
  · by_cases hj : j = i
    · subst hj
      rw [Function.update_self]
      refine hu.congr fun b hb => he.node_ne ?_
      rintro rfl
      exact hout hb
    · rw [Function.update_of_ne hj]
      refine (hinv.rep.2 j).congr fun b hb => he.node_ne ?_
      rintro rfl
      exact T.not_mem_child hnd j hb
  · have hsum := T.sum_addrs_update c i u
    apply add_right_cancel (b := (c i).addrs)
    simp only [T.addrs_node, ← Multiset.singleton_add]
    calc _ = {a} + (∑ j, (Function.update c i u j).addrs + (c i).addrs) + held' := by abel
      _ = {a} + ∑ j, (c j).addrs + (u.addrs + held') := by
        rw [hsum]
        abel
      _ = _ := by
        rw [hown]
        abel

theorem Fair.count (hk : h'.onlyKey = h.onlyKey) (hv : h'.onlyVal = h.onlyVal) :
    Fair A pos (.node a h c) (.node a h' c) := by
  intro k v _ _ _ hget
  refine ⟨?_, h', c, rfl, hv, fun h0 => ⟨hk.trans h0, .refl k _⟩⟩
  rw [T.get_node, hk, hv, ← T.get_node k a]
  exact hget

theorem Step.nchildren (hinv : Inv Q m ⟨.node a h c, pool, held⟩) (n : ℕ) : Step A Q pos m ⟨.node a h c, pool, held⟩
    (.nchildren a n) ⟨.node a { h with nchildren := n } c, pool, held⟩ := by
  refine Step.header hinv (.nchildren n) trivial ?_ (.count rfl rfl)
  simp only [Mem.store, m.setNode_self, hinv.rep.1]
  rfl

theorem Step.onlyVal (hinv : Inv Q m ⟨.node a h c, pool, held⟩) {v : ℕ} (hq : Q h.onlyKey v)
    (hfair : Fair A pos (.node a h c) (.node a { h with onlyVal := v } c)) : Step A Q pos m ⟨.node a h c, pool, held⟩
    (.onlyVal a v) ⟨.node a { h with onlyVal := v } c, pool, held⟩ := by
  refine Step.header hinv (.onlyVal v) (fun _ => Or.inr ?_) ?_ hfair
  · rw [hinv.rep.1]
    exact hq
  · simp only [Mem.store, m.setNode_self, hinv.rep.1]
    rfl

theorem Step.clearKey (hinv : Inv Q m ⟨.node a h c, pool, held⟩)
    (hfair : Fair A pos (.node a h c) (.node a { h with onlyKey := 0 } c)) : Step A Q pos m ⟨.node a h c, pool, held⟩
    (.onlyKey a 0) ⟨.node a { h with onlyKey := 0 } c, pool, held⟩ := by
  refine Step.header hinv (.onlyKey 0) (fun h0 => absurd rfl h0) ?_ hfair
  simp only [Mem.store, m.setNode_self, hinv.rep.1]
  rfl

theorem T.packed_eq {k : Word} {v : ℕ} (h0 : h.onlyKey ≠ 0) (hget : (T.node a h c).get k = v) (hv : v ≠ NULL) :
    h.onlyKey = k ∧ h.onlyVal = v := by
  rw [T.get_packed h0] at hget
  split at hget
  · exact ⟨‹_›, hget⟩
  · exact absurd hget.symm hv

/-- The value of the only key is overwritten. -/
theorem Fair.value {v' : ℕ} (h0 : h.onlyKey ≠ 0) (hA : ∀ v, A h.onlyKey v → v = v') :
    Fair A pos (.node a h c) (.node a { h with onlyVal := v' } c) := by
  intro k v _ hkv hv hget
  obtain ⟨rfl, rfl⟩ := T.packed_eq h0 hget hv
  refine ⟨?_, _, c, rfl, (hA _ hkv).symm, fun hz => absurd hz h0⟩
  rw [T.get_packed (by exact h0), if_pos rfl]
  exact (hA _ hkv).symm

/-- The only key is below too. -/
theorem Fair.open (h0 : h.onlyKey ≠ 0) (hc : (c (sl h.onlyKey (l + 1))).get h.onlyKey = h.onlyVal) :
    Fair A pos (.node a h c) (.node a { h with onlyKey := 0 } c) := by
  intro k v _ _ hv hget
  obtain ⟨rfl, rfl⟩ := T.packed_eq h0 hget hv
  exact ⟨(T.get_open rfl).trans hc, _, c, rfl, rfl, fun hz => absurd hz h0⟩

/-- A slot where no key is found is filled or emptied. -/
theorem Fair.slot (hi : ∀ k v, Under l (16 * pos + i.val) k → A k v → h.onlyKey = 0 → (c i).get k = NULL) :
    Fair A pos (.node a h c) (.node a h (Function.update c i u)) := by
  intro k v hk hA hv hget
  by_cases h0 : h.onlyKey = 0
  · rw [T.get_open h0] at hget ⊢
    have hne : sl k (l + 1) ≠ i := by
      rintro rfl
      exact hv (hget.symm.trans (hi k v (under_child hk) hA h0))
    rw [Function.update_of_ne hne]
    refine ⟨hget, h, _, rfl, rfl, fun _ => ⟨h0, ?_⟩⟩
    rw [Function.update_of_ne hne]
    exact .refl k _
  · rw [T.get_packed h0] at hget ⊢
    exact ⟨hget, h, _, rfl, rfl, fun hz => absurd hz h0⟩

end

/-! ## Steps on a part -/

/-- The subtree is the child of a node. -/
def Ghost.under (g : Ghost l) (a : Addr) (h : Hdr) (c : Fin 16 → T l) (i : Fin 16) : Ghost (l + 1) :=
  ⟨.node a h (Function.update c i g.tree), g.pool, g.held⟩

/-- The tree is not linked, and another one is. -/
def Ghost.beside {l' : ℕ} (g : Ghost l) (t : T l') : Ghost l' := ⟨t, g.pool, g.held + g.tree.addrs⟩

section

variable {h : Hdr} {c : Fin 16 → T l} {i : Fin 16}

theorem Ghost.under_owned (g : Ghost l) : (g.under a h c i).owned + (c i).addrs = a ::ₘ ∑ j, (c j).addrs + g.owned := by
  simp only [Ghost.under, Ghost.owned, T.addrs_node, ← Multiset.singleton_add]
  have hsum := T.sum_addrs_update c i g.tree
  calc _ = {a} + (∑ j, (Function.update c i g.tree j).addrs + (c i).addrs) + (g.pool : Multiset Addr) + g.held := by abel
    _ = _ := by
      rw [hsum]
      abel

theorem Ghost.mem_under {b : Addr} (hb : b ∈ g.owned) : b ∈ (g.under a h c i).owned := by
  rcases Ghost.mem_owned.mp hb with hb | hb | hb
  · refine Ghost.mem_owned.mpr (Or.inl (T.mem_addrs_child (i := i) ?_))
    rwa [Function.update_self]
  · exact Ghost.mem_owned.mpr (Or.inr (Or.inl hb))
  · exact Ghost.mem_owned.mpr (Or.inr (Or.inr hb))

theorem Inv.child (hinv : Inv Q m (g.under a h c i)) : Inv Q m g where
  toHeap := hinv.toHeap
  rep := by
    have hrep := hinv.rep.2 i
    rwa [Function.update_self] at hrep
  pool := hinv.pool
  owned := by
    refine le_trans (add_le_add_left ?_ _) hinv.owned
    have hle := T.addrs_child_le (a := a) (h := h) (Function.update c i g.tree) i
    rw [Function.update_self] at hle
    exact add_le_add_left (add_le_add_left hle _) _

/-- The node above and its other children are not the writer's. -/
theorem Inv.above (hinv : Inv Q m (g.under a h c i)) : a ∉ g.owned ∧ ∀ j ≠ i, ∀ b ∈ (c j).addrs, b ∉ g.owned := by
  obtain ⟨hn, htree, -⟩ := hinv.apart
  have hchild : ∀ j ≠ i, ∀ b ∈ (c j).addrs, b ∈ (g.under a h c i).tree.addrs := fun j hj b hb =>
    T.mem_addrs_child (i := j) (by rwa [Function.update_of_ne hj])
  have hself : (Function.update c i g.tree i).addrs = g.tree.addrs := by rw [Function.update_self]
  constructor
  · intro ha
    rcases Ghost.mem_owned.mp ha with ha | ha | ha
    · exact T.not_mem_child hn i (hself ▸ ha)
    · exact (htree a (Multiset.mem_cons_self _ _)).1 ha
    · exact (htree a (Multiset.mem_cons_self _ _)).2 ha
  · intro j hj b hb hown
    rcases Ghost.mem_owned.mp hown with ho | ho | ho
    · refine T.nodup_child hn hj ?_ (hself ▸ ho)
      rwa [Function.update_of_ne hj]
    · exact (htree b (hchild j hj b hb)).1 ho
    · exact (htree b (hchild j hj b hb)).2 ho

theorem Step.under (hinv : Inv Q m (g.under a h c i)) (hs : Step A' Q (16 * pos + i.val) m g e g')
    (hA : h.onlyKey = 0 → ∀ k v, A k v → A' k v) : Step A Q pos m (g.under a h c i) e (g'.under a h c i) := by
  obtain ⟨ha, hother⟩ := hinv.above
  have hle : ∀ b ∈ (g.under a h c i).owned, b ≤ m.malloced := fun b hb => hinv.le_malloced hb
  have htotal : (g'.under a h c i).owned + (m.store e).freed + Multiset.range (m.malloced + 1) =
      (g.under a h c i).owned + m.freed + Multiset.range ((m.store e).malloced + 1) := by
    apply add_right_cancel (b := (c i).addrs)
    calc _ = ((g'.under a h c i).owned + (c i).addrs) + (m.store e).freed + Multiset.range (m.malloced + 1) := by abel
      _ = a ::ₘ ∑ j, (c j).addrs + (g'.owned + (m.store e).freed + Multiset.range (m.malloced + 1)) := by
        rw [Ghost.under_owned]
        abel
      _ = ((g.under a h c i).owned + (c i).addrs) + m.freed + Multiset.range ((m.store e).malloced + 1) := by
        rw [hs.total, Ghost.under_owned]
        abel
      _ = _ := by abel
  refine ⟨⟨hs.inv.toHeap, ⟨?_, fun j => ?_⟩, hs.inv.pool, owned_of_total hinv.owned htotal⟩, rfl, htotal, fun b hb hout => ?_,
    hs.status, fun k v hk hA' hv hget => ?_⟩
  · -- the node above
    rw [hs.frame a (hle a (Ghost.mem_owned.mpr (Or.inl (Multiset.mem_cons_self _ _)))) ha, hinv.rep.1]
    simp only [T.ptrs_update, hs.ptr]
  · by_cases hj : j = i
    · subst hj
      rw [Function.update_self]
      exact hs.inv.rep
    · rw [Function.update_of_ne hj]
      have hrep := hinv.rep.2 j
      rw [Function.update_of_ne hj] at hrep
      refine hrep.congr fun b hb => hs.frame b (hle b ?_) (hother j hj b hb)
      refine Ghost.mem_owned.mpr (Or.inl (T.mem_addrs_child (i := j) ?_))
      rwa [Function.update_of_ne hj]
  · exact hs.frame b hb fun hin => hout (Ghost.mem_under hin)
  · -- readers
    by_cases h0 : h.onlyKey = 0
    · simp only [Ghost.under, T.get_open h0] at hget ⊢
      by_cases hi : sl k (l + 1) = i
      · subst hi
        rw [Function.update_self] at hget ⊢
        obtain ⟨hg, hst⟩ := hs.fair k v (under_child hk) (hA h0 k v hA') hv hget
        refine ⟨hg, h, _, rfl, rfl, fun _ => ⟨h0, ?_⟩⟩
        rwa [Function.update_self, Function.update_self]
      · rw [Function.update_of_ne hi] at hget ⊢
        refine ⟨hget, h, _, rfl, rfl, fun _ => ⟨h0, ?_⟩⟩
        rw [Function.update_of_ne hi, Function.update_of_ne hi]
        exact .refl k _
    · simp only [Ghost.under, T.get_packed h0] at hget ⊢
      exact ⟨hget, h, _, rfl, rfl, fun hz => absurd hz h0⟩

theorem Path.under {log : List Event} (hp : Path (Step A' Q (16 * pos + i.val)) m g log g')
    (hinv : Inv Q m (g.under a h c i)) (hA : h.onlyKey = 0 → ∀ k v, A k v → A' k v) :
    Path (Step A Q pos) m (g.under a h c i) log (g'.under a h c i) := by
  induction hp with
  | nil m g => exact .nil m _
  | cons hs _ ih =>
      have hs' : Step A Q pos _ _ _ _ := .under hinv hs hA
      exact .cons hs' (ih hs'.inv)

end

section

variable {l' pos' : ℕ} {t : T l'}

theorem Ghost.beside_owned (g : Ghost l) (t : T l') : (g.beside t).owned = t.addrs + g.owned := by
  simp only [Ghost.beside, Ghost.owned]
  abel

theorem Inv.of_beside (hinv : Inv Q m (g.beside t)) (hrep : Rep m g.tree) : Inv Q m g where
  toHeap := hinv.toHeap
  rep := hrep
  pool := hinv.pool
  owned := by
    refine le_trans (add_le_add_left ?_ _) hinv.owned
    rw [Ghost.beside_owned]
    exact Multiset.le_add_left _ _

theorem Step.beside (hinv : Inv Q m (g.beside t)) (hs : Step A' Q pos' m g e g') :
    Step A Q pos m (g.beside t) e (g'.beside t) := by
  have hout : ∀ b ∈ t.addrs, b ∉ g.owned := by
    have hn := (Multiset.nodup_add.mp hinv.nodup).1
    rw [Ghost.beside_owned] at hn
    exact fun b hb => Multiset.disjoint_left.mp (Multiset.nodup_add.mp hn).2.2 hb
  have htotal : (g'.beside t).owned + (m.store e).freed + Multiset.range (m.malloced + 1) =
      (g.beside t).owned + m.freed + Multiset.range ((m.store e).malloced + 1) := by
    rw [Ghost.beside_owned, Ghost.beside_owned]
    calc _ = t.addrs + (g'.owned + (m.store e).freed + Multiset.range (m.malloced + 1)) := by abel
      _ = _ := by
        rw [hs.total]
        abel
  refine ⟨⟨hs.inv.toHeap, ?_, hs.inv.pool, owned_of_total hinv.owned htotal⟩, rfl, htotal, fun b hb ho => ?_, hs.status,
    Fair.refl t⟩
  · refine hinv.rep.congr fun b hb => hs.frame b (hinv.le_malloced ?_) (hout b hb)
    exact Ghost.mem_owned.mpr (Or.inl hb)
  · refine hs.frame b hb fun hin => ho ?_
    rw [Ghost.beside_owned]
    exact Multiset.mem_add.mpr (Or.inr hin)

theorem Path.beside {log : List Event} (hp : Path (Step A' Q pos') m g log g') (hinv : Inv Q m (g.beside t)) :
    Path (Step A Q pos) m (g.beside t) log (g'.beside t) := by
  induction hp with
  | nil m g => exact .nil m _
  | cons hs _ ih =>
      have hs' : Step A Q pos _ _ _ _ := .beside hinv hs
      exact .cons hs' (ih hs'.inv)

end

end Ptok.Tcradix
