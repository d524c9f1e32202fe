import Ptok.Tcradix.Lemmas.Teardown

/-!
# tcradix_insert

A compressed node that gets a second key has the first one stored below before it is opened. Where that is too is no
node, one is taken from the list or from malloc, filled, and then linked.
-/

namespace Ptok.Tcradix

open Lib

variable {l : ℕ} {A Q : Word → ℕ → Prop} {pos : ℕ} {m : Mem} {g g' : Ghost l} {a : Addr} {log : List Event}
  {ok : ℕ → Bool} {key : Word} {value : ℕ}

theorem Path.inv (hp : Path (Step A Q pos) m g log g') (h : Inv Q m g) : Inv Q (storeAll m log) g' :=
  Lib.Path.inv (fun hs _ => hs.inv) hp h

/-! ## New nodes -/

/-- It returns a clean node or nothing. -/
theorem allocNode_spec {t : T l} {pool : List Addr} {held : Multiset Addr} (h : Inv Q m ⟨t, pool, held⟩) (ok : ℕ → Bool) :
    (∃ log, Does (Step A Q pos) (allocNode ok) m ⟨t, pool, held⟩ .null log ⟨t, pool, held⟩ ∧ ¬ ∀ i, ok i = true) ∨
      ∃ a log pool', Does (Step A Q pos) (allocNode ok) m ⟨t, pool, held⟩ (.node a) log ⟨t, pool', held + {a}⟩ ∧
        (storeAll m log).node a = .zero := by
  cases pool with
  | nil =>
      have hnull : m.deletedNode = .null := h.pool
      cases hok : ok (m.malloced + m.fails) with
      | false =>
          refine Or.inl ⟨[.zalloc false], .read ?_, fun hall => ?_⟩
          · rw [hnull]
            refine .read (.read ?_)
            rw [hok]
            exact .emit (.zallocFail h) (.pure _ _ _)
          · rw [hall] at hok
            cases hok
      | true =>
          refine Or.inr ⟨m.malloced + 1, [.zalloc true], [], .read ?_, Function.update_self _ _ _⟩
          rw [hnull]
          refine .read (.read ?_)
          rw [hok]
          exact .emit (.zalloc h) (.pure _ _ _)
  | cons a as =>
      obtain ⟨hnode, next, hn, -⟩ := h.pool
      have hs : Step A Q pos m _ _ _ := .pop h
      have hs' : Step A Q pos _ _ (.nodes a 0 .null) _ := .held hs.inv (.nodes 0 .null) (by simp) fun b hb => by cases hb
      refine Or.inr ⟨a, [.deletedNode ((m.node a).nodes 0), .nodes a 0 .null], as, .read ?_, ?_⟩
      · rw [hnode]
        exact .read (.emit hs (.emit hs' (.pure _ _ _)))
      · simp [Storable.store, Mem.store, Mem.setNode, hn, poolNode, Node.zero]

/-- The stores to a new node before it is linked. -/
def fillLog (a : Addr) (key : Word) (value n : ℕ) : List Event := [.onlyKey a key, .onlyVal a value, .nchildren a n]

theorem fillLog_node {n : ℕ} (hz : m.node a = .zero) :
    (storeAll m (fillLog a key value n)).node a = Hdr.node ⟨key, value, n⟩ fun _ => .null := by
  simp [fillLog, Storable.store, Mem.store, Mem.setNode, hz, Node.zero, Hdr.node]

theorem fill_path {n : ℕ} (h : Inv Q m g) (ha : a ∈ g.held) (hz : m.node a = .zero) (hq : Q key value) :
    Path (Step A Q pos) m g (fillLog a key value n) g := by
  have h₁ : Step A Q pos m g (.onlyKey a key) g := .held h (.onlyKey key) ha fun _ => Or.inl (by rw [hz]; rfl)
  have h₂ : Step A Q pos (m.store (.onlyKey a key)) g (.onlyVal a value) g :=
    .held h₁.inv (.onlyVal value) ha fun _ => Or.inr (by simpa [Mem.store, Mem.setNode] using hq)
  have h₃ : Step A Q pos ((m.store (.onlyKey a key)).store (.onlyVal a value)) g (.nchildren a n) g :=
    .held h₂.inv (.nchildren n) ha trivial
  exact .cons h₁ (.cons h₂ (.single h₃))

theorem fill_does {α : Type} {x : W α} {r : α} {n : ℕ} (hp : Path (Step A Q pos) m g (fillLog a key value n) g)
    (hx : Does (Step A Q pos) x (storeAll m (fillLog a key value n)) g r log g') :
    Does (Step A Q pos) (do
      Wr.emit (.onlyKey a key)
      Wr.emit (.onlyVal a value)
      Wr.emit (.nchildren a n)
      x) m g r (fillLog a key value n ++ log) g' := by
  refine ⟨?_, hp.append hx.path⟩
  have hrun := hx.run
  simp only [fillLog, storeAll_cons, storeAll_nil] at hrun
  simp [fillLog, hrun, Except.bind, Except.map]

/-! ## What an insert does to a subtree -/

structure Inserted (pos : ℕ) (key : Word) (value : ℕ) (e : Errno) (t t' : T l) : Prop where
  ok : t'.OK pos
  bare : t'.Bare → t.Bare ∧ e ≠ .ok
  keep : ∀ k ≠ key, Under l pos k → t'.get k = t.get k
  self : t'.get key = if e = .ok ∨ t.get key ≠ NULL then value else NULL
  copy : key ≠ 0 → ∀ v, t.Copy key v → t'.Copy key value
  nil : t' = .nil → t = .nil
  full : e = .ok → t = .nil ∨ t'.Full
  fail : e ≠ .ok → t = .nil ∨ t.Bare → t' = t

/-- The node with nothing but one key. -/
def T.single (a : Addr) (key : Word) (value : ℕ) : (l : ℕ) → T l
  | 0 => .last a ⟨key, value, 1⟩ fun i => if i = sl key 0 then .val value else .null
  | _ + 1 => .node a ⟨key, value, 0⟩ fun _ => .nil

theorem used_single (i : Fin 16) (p : Ptr) (hp : p ≠ .null) : used (fun j => if j = i then p else .null) = 1 := by
  have hset : (Finset.univ.filter fun j => (if j = i then p else .null) ≠ .null) = {i} := by
    ext j
    by_cases hj : j = i <;> simp [hj, hp]
  rw [used, hset, Finset.card_singleton]

theorem used_null : used (fun _ => .null) = 0 := used_eq_zero.mpr fun _ => rfl

/-- It is what an insert makes of nothing. -/
theorem T.single_inserted (a : Addr) (hu : Under l pos key) (hv : value ≠ NULL) (hk : l ≠ 0 → key ≠ 0) :
    Inserted pos key value .ok (.nil : T l) (T.single a key value l) := by
  cases l with
  | zero =>
      have hval : Ptr.val value ≠ .null := by simp
      refine ⟨⟨(used_single _ _ hval).symm, fun i => ?_, fun _ => ⟨hu, by simp⟩⟩, fun hb => ?_, fun k hne hu' => ?_, ?_,
        fun _ _ _ _ => rfl, fun _ => rfl, fun _ => Or.inl rfl, fun he => absurd rfl he⟩
      · by_cases hi : i = sl key 0
        · exact Or.inr ⟨value, hv, if_pos hi⟩
        · exact Or.inl (if_neg hi)
      · cases hb.1
      · have hs : sl k 0 ≠ sl key 0 := fun hs => hne (eq_of_sl hu' hu hs)
        simp [T.single, hs, toVoid]
      · simp [T.single, toVoid]
  | succ l =>
      have hk : key ≠ 0 := hk (Nat.succ_ne_zero l)
      refine ⟨⟨used_null.symm, fun _ => ⟨hu, hv, fun _ _ => rfl, trivial⟩, fun _ => ⟨T.ok_nil, id⟩⟩, fun hb => absurd hb.2 hk,
        fun k hne _ => ?_, ?_, fun _ _ _ => ⟨rfl, rfl⟩, fun _ => rfl, fun _ => Or.inl rfl, fun he => absurd rfl he⟩
      · exact (T.get_packed hk).trans (if_neg hne.symm)
      · exact (T.get_packed hk).trans (if_pos rfl)

/-- What an insert made of a clean node. -/
theorem Inserted.of_bare {e : Errno} {t t' : T l} (h : Inserted pos key value e t t') (hb : t.Bare) (hok : t.OK pos)
    (hk : key = 0) (he : e = .ok) : Inserted pos key value e (.nil : T l) t' where
  ok := h.ok
  bare hb' := absurd he (h.bare hb').2
  keep k hne hu := by rw [h.keep k hne hu, hb.get hok, T.get_nil]
  self := by rw [h.self, hb.get hok, T.get_nil]
  copy hne := absurd hk hne
  nil _ := rfl
  full _ := Or.inl rfl
  fail hne := absurd he hne

/-! ## insert_child -/

/-- The call returns, its stores keep to the steps, and the subtree is what it shall be. -/
def Inserts (A Q : Word → ℕ → Prop) (pos : ℕ) (ok : ℕ → Bool) (key : Word) (value : ℕ) (x : W Errno) (m : Mem) (t : T l)
    (pool : List Addr) (held : Multiset Addr) : Prop :=
  ∃ e log t' pool', Does (Step A Q pos) x m ⟨t, pool, held⟩ e log ⟨t', pool', held⟩ ∧ Inserted pos key value e t t' ∧
    ((∀ i, ok i = true) → e = .ok)

/-- What is proved of `insert` by induction on the level. -/
def InsertSpec (ok : ℕ → Bool) (l : ℕ) : Prop :=
  ∀ {A Q pos m pool held a key value} {t : T l}, Inv Q m ⟨t, pool, held⟩ → t.ptr = .node a → t.OK pos → Under l pos key →
    value ≠ NULL → Q key value → (∀ v, A key v → v = value) →
    Inserts A Q pos ok key value (insert ok l a key value) m t pool held

theorem Path.ptr (hp : Path (Step A Q pos) m g log g') : g'.tree.ptr = g.tree.ptr := by
  induction hp with
  | nil => rfl
  | cons hs _ ih => exact ih.trans hs.ptr

section

variable {h : Hdr} {c : Fin 16 → T l} {pool : List Addr} {held : Multiset Addr}

/-- A clean node with a value, as a tree. -/
def T.clean (a : Addr) (value : ℕ) (l : ℕ) : T (l + 1) := .node a ⟨0, value, 0⟩ fun _ => .nil

theorem T.clean_addrs (a : Addr) (value : ℕ) : (T.clean a value l).addrs = {a} := by simp [T.clean]

theorem T.clean_ok (a : Addr) (value : ℕ) : (T.clean a value l).OK pos :=
  ⟨used_null.symm, fun h0 => absurd rfl h0, fun _ => ⟨T.ok_nil, id⟩⟩

theorem T.single_addrs (a : Addr) (key : Word) (value : ℕ) : (T.single a key value l).addrs = {a} := by
  cases l <;> simp [T.single]

theorem T.single_ptr (a : Addr) (key : Word) (value : ℕ) : (T.single a key value l).ptr = .node a := by
  cases l <;> rfl

/-- The new node becomes a tree of its own, or it stays clean for want of memory. -/
theorem fillChild_spec {l' pos' : ℕ} {t : T l'} (ih : InsertSpec ok l) (hinv : Inv Q m ⟨t, pool, held + {a}⟩)
    (hz : m.node a = .zero) (hu : Under l pos key) (hv : value ≠ NULL) (hq : Q key value) :
    ∃ e log u pool', Does (Step A Q pos') (fillChild (insert ok l) (l + 1) a key value) m ⟨t, pool, held + {a}⟩ e log
        ⟨t, pool', held + u.addrs⟩ ∧ Rep (storeAll m log) u ∧ u.ptr = .node a ∧ u.OK pos ∧
      (e = .ok → Inserted pos key value .ok (.nil : T l) u) ∧ (e ≠ .ok → u.addrs = {a}) ∧
      ((∀ i, ok i = true) → e = .ok) := by
  have ha : a ∈ (⟨t, pool, held + {a}⟩ : Ghost l').held := by simp
  have hfill : ∀ n, Path (Step A Q pos') m ⟨t, pool, held + {a}⟩ (fillLog a key value n) ⟨t, pool, held + {a}⟩ := fun n =>
    fill_path hinv ha hz hq
  have hinv' : ∀ n, Inv Q (storeAll m (fillLog a key value n)) ⟨t, pool, held + {a}⟩ := fun n => Path.inv (hfill n) hinv
  cases l with
  | zero =>
      have hins := T.single_inserted a hu hv fun h0 => absurd rfl h0
      refine ⟨.ok, fillLog a key value 1 ++ [.nodes a (sl key 0) (ofVoid value)], T.single a key value 0, pool, ?_, ?_, rfl,
        hins.ok, fun _ => hins, fun he => absurd rfl he, fun _ => rfl⟩
      · rw [T.single_addrs]
        refine fill_does (hfill 1) (.emit (.held (hinv' 1) (.nodes _ _) ha fun b hb => ?_) (.pure _ _ _))
        rw [ofVoid_of_ne hv] at hb
        cases hb
      · rw [storeAll_append]
        show ((storeAll m (fillLog a key value 1)).store (.nodes a (sl key 0) (ofVoid value))).node a = _
        simp only [Mem.store, Mem.setNode_self, fillLog_node hz, ofVoid_of_ne hv]
        refine Node.ext (funext fun i => ?_) rfl rfl rfl
        simp [Function.update_apply]
  | succ l =>
      by_cases hk : key = 0
      · subst hk
        have hrep : Rep (storeAll m (fillLog a 0 value 0)) (T.clean a value l) := ⟨fillLog_node hz, fun _ => trivial⟩
        have hclean : (T.clean a value l).Bare := ⟨rfl, rfl⟩
        have hbeside : Ghost.beside ⟨T.clean a value l, pool, held⟩ t = ⟨t, pool, held + {a}⟩ := by
          rw [Ghost.beside, T.clean_addrs]
        have hinv₁ := hinv' 0
        rw [← hbeside] at hinv₁
        obtain ⟨e, log, u, pool', hdo, hins, hall⟩ := ih (A := fun _ v => v = value) (hinv₁.of_beside hrep) rfl
          (T.clean_ok a value) hu hv hq fun _ h => h
        have hpath : Path (Step A Q pos') _ _ _ _ := Path.beside hdo.path hinv₁
        rw [hbeside] at hpath
        refine ⟨e, fillLog a 0 value 0 ++ log, u, pool', fill_does (hfill 0) ?_, ?_, Path.ptr hdo.path, hins.ok, ?_, ?_, hall⟩
        · rw [if_neg (by omega), if_pos rfl]
          exact ⟨hdo.run, hpath⟩
        · rw [storeAll_append]
          exact (Path.inv hdo.path (hinv₁.of_beside hrep)).rep
        · rintro rfl
          exact hins.of_bare hclean (T.clean_ok a value) rfl rfl
        · intro he
          rw [hins.fail he (Or.inr hclean), T.clean_addrs]
      · have hins := T.single_inserted a hu hv fun _ => hk
        refine ⟨.ok, fillLog a key value 0 ++ [], T.single a key value (l + 1), pool, ?_, ⟨?_, fun _ => trivial⟩, rfl, hins.ok,
          fun _ => hins, fun he => absurd rfl he, fun _ => rfl⟩
        · rw [T.single_addrs]
          refine fill_does (hfill 0) ?_
          rw [if_neg (by omega), if_neg hk]
          exact .pure _ _ _
        · rw [List.append_nil]
          exact fillLog_node hz

theorem T.mem_addrs_of_ptr {u : T l} {b : Addr} (h : u.ptr = .node b) : b ∈ u.addrs := by
  cases u with
  | nil => cases h
  | last d hd w =>
      cases h
      exact Multiset.mem_singleton_self _
  | node d hd c =>
      cases h
      exact Multiset.mem_cons_self _ _

theorem Inserted.nothing {e : Errno} (he : e ≠ .ok) : Inserted pos key value e (.nil : T l) .nil where
  ok := T.ok_nil
  bare := False.elim
  keep _ _ _ := rfl
  self := by simp [he]
  copy _ _ _ := trivial
  nil _ := rfl
  full _ := Or.inl rfl
  fail _ _ := rfl

/-- `insert_child` changes the child and the count. -/
def InsertsChild (A Q : Word → ℕ → Prop) (pos : ℕ) (ok : ℕ → Bool) (key : Word) (value : ℕ) (m : Mem) (a : Addr) (h : Hdr)
    (c : Fin 16 → T l) (pool : List Addr) (held : Multiset Addr) : Prop :=
  ∃ e log u pool', Does (Step A Q pos) (insertChild ok (insert ok l) (l + 1) a key value) m ⟨.node a h c, pool, held⟩ e log
      ⟨.node a { h with nchildren := used (T.ptrs (Function.update c (sl key (l + 1)) u)) }
        (Function.update c (sl key (l + 1)) u), pool', held⟩ ∧
    Inserted (16 * pos + (sl key (l + 1)).val) key value e (c (sl key (l + 1))) u ∧ ((∀ i, ok i = true) → e = .ok)

/-- The new node is linked, or freed if it is not complete. -/
theorem linkChild_spec (ih : InsertSpec ok l) (hinv : Inv Q m ⟨.node a h c, pool, held⟩)
    (hcount : h.nchildren = used (T.ptrs c)) (hnil : c (sl key (l + 1)) = .nil) (hu : Under (l + 1) pos key)
    (hv : value ≠ NULL) (hq : Q key value) : InsertsChild A Q pos ok key value m a h c pool held := by
  have hslot : (m.node a).nodes (sl key (l + 1)) = .null := by rw [hinv.rep.1, Hdr.node_nodes, T.ptrs_apply, hnil, T.ptr_nil]
  have hsame : Function.update c (sl key (l + 1)) .nil = c := by rw [← hnil, Function.update_eq_self]
  have hhdr : ({ h with nchildren := used (T.ptrs c) } : Hdr) = h := by rw [← hcount]
  unfold InsertsChild
  rcases allocNode_spec hinv ok with ⟨log, hdo, hno⟩ | ⟨b, log, pool₁, hdo, hz⟩
  · refine ⟨.ENOMEM, log ++ [], .nil, pool, .read ?_, by rw [hnil]; exact .nothing (by simp), fun hall => absurd hall hno⟩
    rw [hslot, hsame, hhdr]
    exact .bind hdo (.pure _ _ _)
  · have hinv₁ := Path.inv hdo.path hinv
    obtain ⟨e, log₂, u, pool₂, hdo₂, hrep, hptr, hok, hdone, hfail, hall⟩ :=
      fillChild_spec ih hinv₁ hz (under_child hu) hv hq
    have hinv₂ : Inv Q _ ⟨.node a h c, pool₂, held + u.addrs⟩ := Path.inv hdo₂.path hinv₁
    by_cases he : e = .ok
    · subst he
      -- the node is linked
      have hb : b ∈ u.addrs := T.mem_addrs_of_ptr hptr
      have hout : a ∉ u.addrs := fun ha =>
        (hinv₂.apart.2.1 a (Multiset.mem_cons_self _ _)).2 (Multiset.mem_add.mpr (Or.inr ha))
      have hknown : ∀ d, u.ptr = .node d → d ≤ (storeAll (storeAll m log) log₂).malloced := by
        intro d hd
        refine hinv₂.le_malloced (Ghost.mem_owned.mpr (Or.inr (Or.inr (Multiset.mem_add.mpr (Or.inr ?_)))))
        exact T.mem_addrs_of_ptr hd
      have hs : Step A Q pos _ _ (.nodes a (sl key (l + 1)) u.ptr) ⟨_, pool₂, held⟩ :=
        .slot hinv₂ hrep hout hknown (by rw [hnil, T.addrs_nil]; abel) (.slot fun k v _ _ _ => by rw [hnil, T.get_nil])
      have hcount' : used (T.ptrs (Function.update c (sl key (l + 1)) u)) = h.nchildren + 1 := by
        rw [T.ptrs_update, used_fill, hcount]
        · rw [T.ptrs_apply, hnil, T.ptr_nil]
        · simp [hptr]
      have hn : (Mem.node (Storable.store _ _) a).nchildren = h.nchildren := congrArg Node.nchildren hs.inv.rep.1
      refine ⟨.ok, log ++ (log₂ ++ [.nodes a (sl key (l + 1)) u.ptr, .nchildren a (h.nchildren + 1)]), u, pool₂, .read ?_,
        by rw [hnil]; exact hdone rfl, fun _ => rfl⟩
      rw [hslot, hcount']
      refine .bind hdo (.bind hdo₂ ?_)
      rw [if_neg (not_not.mpr rfl), ← hptr]
      refine .emit hs (.read ?_)
      rw [hn]
      exact .emit (.nchildren hs.inv _) (.pure _ _ _)
    · -- it is freed again
      obtain ⟨as, hrun, has⟩ := teardown_frees hrep hok hptr
      rw [hfail he] at has
      obtain rfl : as = [b] := Multiset.coe_eq_singleton.mp has
      rw [hfail he] at hdo₂ hinv₂
      have hdown : Does (Step A Q pos) (teardown l b) _ _ () [.free b] _ := ⟨hrun, .single (.free hinv₂)⟩
      refine ⟨e, log ++ (log₂ ++ ([.free b] ++ [])), .nil, pool₂, .read ?_, ?_, hall⟩
      · rw [hslot, hsame, hhdr]
        refine .bind hdo (.bind hdo₂ ?_)
        rw [if_pos he]
        exact .bind hdown (.pure _ _ _)
      · rw [hnil]
        exact .nothing he

theorem insertChild_spec (ih : InsertSpec ok l) (hinv : Inv Q m ⟨.node a h c, pool, held⟩)
    (hcount : h.nchildren = used (T.ptrs c)) (hok : ∀ i : Fin 16, (c i).OK (16 * pos + i.val)) (hu : Under (l + 1) pos key)
    (hv : value ≠ NULL) (hq : Q key value) (hA : h.onlyKey = 0 → ∀ v, A key v → v = value) :
    InsertsChild A Q pos ok key value m a h c pool held := by
  rcases (c (sl key (l + 1))).ptr_cases with hnil | ⟨b, hb⟩
  · exact linkChild_spec ih hinv hcount hnil hu hv hq
  · have hslot : (m.node a).nodes (sl key (l + 1)) = .node b := by rw [hinv.rep.1, Hdr.node_nodes, T.ptrs_apply, hb]
    have hunder : Ghost.under ⟨c (sl key (l + 1)), pool, held⟩ a h c (sl key (l + 1)) = ⟨.node a h c, pool, held⟩ := by
      rw [Ghost.under, Function.update_eq_self]
    rw [← hunder] at hinv
    obtain ⟨e, log, u, pool', hdo, hins, hall⟩ := ih (A := fun k v => k = key → v = value) hinv.child hb (hok _)
      (under_child hu) hv hq fun v hv => hv rfl
    have hpath : Path (Step A Q pos) _ _ _ _ := Path.under hdo.path hinv fun h0 k v hkv hk => hA h0 v (hk ▸ hkv)
    have hptr : u.ptr = (c (sl key (l + 1))).ptr := Path.ptr hdo.path
    rw [hunder] at hpath
    refine ⟨e, log, u, pool', .read ?_, hins, hall⟩
    rw [hslot, T.ptrs_update_same hptr, ← hcount]
    exact ⟨hdo.run, hpath⟩

/-! ## insert -/

section

variable {i : Fin 16} {u : T l} {e : Errno}

theorem Inserted.ne_nil {t t' : T l} (h : Inserted pos key value .ok t t') (hv : value ≠ NULL) : t' ≠ .nil := by
  rintro rfl
  have hself := h.self
  rw [T.get_nil, if_pos (Or.inl rfl)] at hself
  exact hv hself.symm

theorem Inserted.used_ne_zero (hins : Inserted (16 * pos + i.val) key value .ok (c i) u) (hv : value ≠ NULL) :
    used (T.ptrs (Function.update c i u)) ≠ 0 := by
  refine Tcradix.used_ne_zero (i := i) fun hn => hins.ne_nil hv ?_
  rwa [T.ptrs_apply, Function.update_self, T.ptr_eq_null] at hn

/-- A child after an insert is as good as it was. -/
theorem Inserted.kids (hins : Inserted (16 * pos + i.val) key value e (c i) u)
    (hkids : ∀ j, (c j).OK (16 * pos + j.val) ∧ ¬ (c j).Bare) (j : Fin 16) :
    (Function.update c i u j).OK (16 * pos + j.val) ∧ ¬ (Function.update c i u j).Bare := by
  by_cases hj : j = i
  · subst hj
    rw [Function.update_self]
    exact ⟨hins.ok, fun hb => (hkids j).2 (hins.bare hb).1⟩
  · rw [Function.update_of_ne hj]
    exact hkids j

/-- The node after an insert of its only key into its child. -/
theorem Inserted.packed (hok : (T.node a h c).OK pos) (hv : value ≠ NULL) (h0 : h.onlyKey ≠ 0)
    (hins : Inserted (16 * pos + (sl h.onlyKey (l + 1)).val) h.onlyKey value e (c (sl h.onlyKey (l + 1))) u) :
    (T.node a ⟨h.onlyKey, value, used (T.ptrs (Function.update c (sl h.onlyKey (l + 1)) u))⟩
      (Function.update c (sl h.onlyKey (l + 1)) u)).OK pos := by
  have hp := hok.2.1 h0
  refine ⟨rfl, fun _ => ⟨hp.under, hv, fun j hj => ?_, ?_⟩, hins.kids hok.2.2⟩
  · rw [Function.update_of_ne hj]
    exact hp.only j hj
  · rw [Function.update_self]
    exact hins.copy h0 _ hp.copy

/-- The node after an insert of another key into its child, if it is not compressed. -/
theorem Inserted.opened (hok : (T.node a h c).OK pos) (h0 : h.onlyKey = 0) (hv : value ≠ NULL)
    (hins : Inserted (16 * pos + (sl key (l + 1)).val) key value e (c (sl key (l + 1))) u) :
    Inserted pos key value e (T.node a h c)
      (T.node a { h with nchildren := used (T.ptrs (Function.update c (sl key (l + 1)) u)) }
        (Function.update c (sl key (l + 1)) u)) where
  ok := ⟨rfl, fun hne => absurd h0 hne, hins.kids hok.2.2⟩
  bare := by
    intro hb
    have hnull := used_eq_zero.mp hb.1
    have hu : u = .nil := by
      have hi := hnull (sl key (l + 1))
      rw [T.ptrs_apply, Function.update_self] at hi
      exact T.ptr_eq_null.mp hi
    refine ⟨⟨?_, h0⟩, ?_⟩
    · rw [hok.1]
      refine used_eq_zero.mpr fun j => ?_
      by_cases hj : j = sl key (l + 1)
      · rw [hj, T.ptrs_apply, hins.nil hu, T.ptr_nil]
      · have hj' := hnull j
        rwa [T.ptrs_apply, Function.update_of_ne hj] at hj'
    · rintro rfl
      exact hins.ne_nil hv hu
  keep := by
    intro k hk hu
    rw [T.get_open h0, T.get_open (by exact h0)]
    by_cases hj : sl k (l + 1) = sl key (l + 1)
    · rw [hj, Function.update_self]
      exact hins.keep k hk (hj ▸ under_child hu)
    · rw [Function.update_of_ne hj]
  self := by
    rw [T.get_open h0, T.get_open (by exact h0), Function.update_self]
    exact hins.self
  copy := fun hne v hc => absurd (hc.1.symm.trans h0) hne
  nil := fun hn => by cases hn
  full := by
    rintro rfl
    exact Or.inr (hins.used_ne_zero hv)
  fail := by
    rintro he (hn | hb)
    · cases hn
    · have hc := T.Bare.eq_node hb hok
      have hi : c (sl key (l + 1)) = .nil := by rw [hc]
      have hsame : Function.update c (sl key (l + 1)) u = c := by
        rw [hins.fail he (Or.inl hi), Function.update_eq_self]
      rw [hsame, ← hok.1]

/-- The node stays compressed for want of memory below. -/
theorem Inserted.notOpened {e : Errno} {key' : Word} {value' : ℕ} (hok : (T.node a h c).OK pos) (h0 : h.onlyKey ≠ 0)
    (hk : h.onlyKey ≠ key') (hv : h.onlyVal ≠ NULL) (he : e ≠ .ok)
    (hins : Inserted (16 * pos + (sl h.onlyKey (l + 1)).val) h.onlyKey h.onlyVal e (c (sl h.onlyKey (l + 1))) u) :
    Inserted pos key' value' e (T.node a h c)
      (T.node a { h with nchildren := used (T.ptrs (Function.update c (sl h.onlyKey (l + 1)) u)) }
        (Function.update c (sl h.onlyKey (l + 1)) u)) where
  ok := hins.packed hok hv h0
  bare hb := absurd hb.2 h0
  keep k _ _ := by
    rw [T.get_packed h0]
    exact T.get_packed h0
  self := by
    rw [T.get_packed h0, if_neg hk, if_neg (by simp [he]), T.get_packed (by exact h0)]
    exact if_neg hk
  copy _ v hc := absurd hc.1 hk
  nil hn := by cases hn
  full hok' := absurd hok' he
  fail _ hb := hb.elim (fun hn => by cases hn) fun hb => absurd hb.2 h0

/-- The node after an insert of its only key. -/
theorem Inserted.own {e : Errno} (hok : (T.node a h c).OK pos) (h0 : h.onlyKey ≠ 0) (hv : value ≠ NULL)
    (hins : Inserted (16 * pos + (sl h.onlyKey (l + 1)).val) h.onlyKey value e (c (sl h.onlyKey (l + 1))) u) :
    Inserted pos h.onlyKey value e (T.node a h c)
      (T.node a ⟨h.onlyKey, value, used (T.ptrs (Function.update c (sl h.onlyKey (l + 1)) u))⟩
        (Function.update c (sl h.onlyKey (l + 1)) u)) where
  ok := hins.packed hok hv h0
  bare hb := absurd hb.2 h0
  keep k hk _ := by
    rw [T.get_packed h0, T.get_packed (by exact h0), if_neg hk.symm]
    exact (if_neg hk.symm).symm
  self := by
    have hval := (hok.2.1 h0).val
    rw [T.get_packed h0, if_pos rfl, if_pos (Or.inr hval), T.get_packed (by exact h0)]
    exact if_pos rfl
  copy _ _ _ := ⟨rfl, rfl⟩
  nil hn := by cases hn
  full := by
    rintro rfl
    exact Or.inr (hins.used_ne_zero hv)
  fail _ hb := hb.elim (fun hn => by cases hn) fun hb => absurd hb.2 h0

/-- An insert into a tree that has the keys of another one. -/
theorem Inserted.of_opened {e : Errno} {t t₁ t' : T l} (hins : Inserted pos key value e t₁ t') (hu : Under l pos key)
    (hget : ∀ k, Under l pos k → t₁.get k = t.get k) (hbare : t₁.Bare → t₁ = t) 
    (hfail : t = .nil ∨ t.Bare → t₁ = t) (hcopy : key ≠ 0 → ∀ v, ¬ t.Copy key v) (hne : t₁ ≠ .nil) : Inserted pos key value e t t' where
  ok := hins.ok
  bare hb := by
    obtain ⟨hb₁, he⟩ := hins.bare hb
    exact ⟨hbare hb₁ ▸ hb₁, he⟩
  keep k hk hu' := (hins.keep k hk hu').trans (hget k hu')
  self := hget key hu ▸ hins.self
  copy hne v hc := absurd hc (hcopy hne v)
  nil hn := absurd (hins.nil hn) hne
  full he := Or.inr ((hins.full he).resolve_left hne)
  fail he hb := by
    have ht := hfail hb
    exact (hins.fail he (ht.symm ▸ hb)).trans ht

/-- What is left of the call when the only key is below. -/
inductive Pushed (pos : ℕ) (key : Word) (value : ℕ) (t : T (l + 1)) : Errno → T (l + 1) → Prop
  | opened {a : Addr} {h : Hdr} {c : Fin 16 → T l} (hok : (T.node a h c).OK pos) (h0 : h.onlyKey = 0)
      (hget : ∀ k, Under (l + 1) pos k → (T.node a h c).get k = t.get k) (hbare : (T.node a h c).Bare → T.node a h c = t)
      (hfail : t.Bare → T.node a h c = t) (hcopy : key ≠ 0 → ∀ v, ¬ t.Copy key v) : Pushed pos key value t .ok (.node a h c)
  | own {a : Addr} {h : Hdr} {c : Fin 16 → T l} (ht : t = .node a h c) (hk : h.onlyKey = key) (h0 : key ≠ 0) :
      Pushed pos key value t .ok (.node a { h with onlyVal := value } c)
  | fail {e : Errno} {t' : T (l + 1)} (he : e ≠ .ok) (hins : Inserted pos key value e t t') : Pushed pos key value t e t'

/-- Nothing is lost when a node is opened whose only key is below. -/
theorem T.get_opened (hok : (T.node a h c).OK pos) (h0 : h.onlyKey ≠ 0) {h' : Hdr} (h0' : h'.onlyKey = 0)
    (hcopy : u.Copy h.onlyKey h.onlyVal) (hne : u ≠ .nil) {k : Word} (hk : Under (l + 1) pos k) :
    (T.node a h' (Function.update c (sl h.onlyKey (l + 1)) u)).get k = (T.node a h c).get k := by
  have hp := hok.2.1 h0
  rw [T.get_open h0', T.get_packed h0]
  by_cases hs : sl k (l + 1) = sl h.onlyKey (l + 1)
  · rw [hs, Function.update_self]
    by_cases he : h.onlyKey = k
    · rw [if_pos he, ← he, hcopy.get_self h0 hne]
    · have hu := under_child hk
      rw [hs] at hu
      rw [if_neg he, hcopy.get_of_ne h0 (Ne.symm he) (under_child hp.under) hu]
  · rw [Function.update_of_ne hs, hp.only _ hs, T.get_nil, if_neg]
    rintro rfl
    exact hs rfl

theorem pushDown_spec (ih : InsertSpec ok l) (hinv : Inv Q m ⟨.node a h c, pool, held⟩) (hok : (T.node a h c).OK pos)
    (hq : Q key value) (hA : ∀ v, A key v → v = value) :
    ∃ e log t' pool', Does (Step A Q pos) (pushDown ok (insert ok l) (l + 1) a key value) m ⟨.node a h c, pool, held⟩ e log
      ⟨t', pool', held⟩ ∧ Pushed pos key value (.node a h c) e t' ∧ ((∀ i, ok i = true) → e = .ok) := by
  have hkey : (m.node a).onlyKey = h.onlyKey := by rw [hinv.rep.1, Hdr.node_onlyKey]
  have hval : (m.node a).onlyVal = h.onlyVal := by rw [hinv.rep.1, Hdr.node_onlyVal]
  by_cases h0 : h.onlyKey = 0
  · refine ⟨.ok, [], .node a h c, pool, .read ?_, ?_, fun _ => rfl⟩
    · rw [if_pos (hkey.trans h0)]
      exact .pure _ _ _
    · exact .opened hok h0 (fun _ _ => rfl) (fun _ => rfl) (fun _ => rfl) fun hne v hc => hne (hc.1.symm.trans h0)
  · have hp := hok.2.1 h0
    have h0' : ¬ (m.node a).onlyKey = 0 := fun hz => h0 (hkey.symm.trans hz)
    by_cases hk : h.onlyKey = key
    · refine ⟨.ok, [.onlyVal a value], _, pool, .read ?_, .own rfl hk (hk ▸ h0), fun _ => rfl⟩
      rw [if_neg h0', if_pos (hkey.trans hk)]
      exact .emit (.onlyVal hinv (hk ▸ hq) (.value h0 (hk ▸ hA))) (.pure _ _ _)
    · -- the other key is stored below
      have hq' : Q h.onlyKey h.onlyVal := by
        have ha := hinv.le_malloced (Ghost.mem_owned.mpr (Or.inl (Multiset.mem_cons_self a _)))
        rw [← hkey, ← hval]
        refine (hinv.paired a ha h0').resolve_left fun hz => hp.val ?_
        rw [← hval, hz]
      obtain ⟨e, log, u, pool', hdo, hins, hall⟩ := insertChild_spec (A := A) ih hinv hok.1 (fun i => (hok.2.2 i).1) hp.under
        hp.val hq' fun hz => absurd hz h0
      have hok' := hins.packed hok hp.val h0
      by_cases he : e = .ok
      · subst he
        have hne := hins.ne_nil hp.val
        have hcopy := hins.copy h0 _ hp.copy
        have hs : Step A Q pos _ _ (.onlyKey a 0) _ := .clearKey (Path.inv hdo.path hinv) (.open h0 (by
          rw [Function.update_self]
          exact hcopy.get_self h0 hne))
        have hpushed : Pushed pos key value (.node a h c) .ok (.node a
            ⟨0, h.onlyVal, used (T.ptrs (Function.update c (sl h.onlyKey (l + 1)) u))⟩
            (Function.update c (sl h.onlyKey (l + 1)) u)) := by
          refine .opened ⟨rfl, fun hz => absurd rfl hz, hok'.2.2⟩ rfl (fun k hk' => T.get_opened hok h0 rfl hcopy hne hk')
            (fun hb => ?_) (fun hb => absurd hb.2 h0) fun _ v hc => hk hc.1
          have hi := used_eq_zero.mp hb.1 (sl h.onlyKey (l + 1))
          rw [T.ptrs_apply, Function.update_self] at hi
          exact absurd (T.ptr_eq_null.mp hi) hne
        refine ⟨.ok, log ++ [.onlyKey a 0], _, pool', .read ?_, hpushed, fun _ => rfl⟩
        rw [if_neg h0', if_neg fun hz => hk (hkey.symm.trans hz), hkey, hval]
        refine .bind hdo ?_
        rw [if_neg (not_not.mpr rfl)]
        exact .emit hs (.pure _ _ _)
      · refine ⟨e, log ++ [], _, pool', .read ?_, .fail he (hins.notOpened hok h0 hk hp.val he), fun hall' => absurd (hall hall') he⟩
        rw [if_neg h0', if_neg fun hz => hk (hkey.symm.trans hz), hkey, hval]
        refine .bind hdo ?_
        rw [if_pos he]
        exact .pure _ _ _

end

end

theorem insert_succ (ih : InsertSpec ok l) : InsertSpec ok (l + 1) := by
  intro A Q pos m pool held a key value t hinv hptr hok hu hv hq hA
  cases t with
  | nil => cases hptr
  | node b h c =>
      cases hptr
      obtain ⟨e₁, log₁, t₁, pool₁, hdo₁, hpushed, hall₁⟩ := pushDown_spec ih hinv hok hq hA
      have hinv₁ := Path.inv hdo₁.path hinv
      cases hpushed with
      | fail he hins =>
          refine ⟨e₁, log₁ ++ [], t₁, pool₁, .bind hdo₁ ?_, hins, hall₁⟩
          rw [if_pos he]
          exact .pure _ _ _
      | @opened b' h' c' hok' h0 hget hbare hfail hcopy =>
          obtain rfl : a = b' := (Ptr.node.inj (Path.ptr hdo₁.path)).symm
          obtain ⟨e, log, u, pool', hdo, hins, hall⟩ := insertChild_spec ih hinv₁ hok'.1 (fun i => (hok'.2.2 i).1) hu hv hq
            fun _ => hA
          have hins' := (hins.opened hok' h0 hv).of_opened hu hget hbare (fun hb => hfail (hb.resolve_left (by simp))) hcopy
            (by simp)
          refine ⟨e, log₁ ++ log, _, pool', .bind hdo₁ ?_, hins', hall⟩
          rw [if_neg (not_not.mpr rfl)]
          exact hdo
      | @own b' h' c' ht hk h0 =>
          cases ht
          subst hk
          obtain ⟨e, log, u, pool', hdo, hins, hall⟩ := insertChild_spec (A := A) ih hinv₁ hok.1 (fun i => (hok.2.2 i).1) hu
            hv hq fun hz => absurd hz h0
          refine ⟨e, log₁ ++ log, _, pool', .bind hdo₁ ?_, hins.own hok h0 hv, hall⟩
          rw [if_neg (not_not.mpr rfl)]
          exact hdo

/-! ### The last level -/

theorem Step.last {h h' : Hdr} {w w' : Fin 16 → Ptr} {pool : List Addr} {held : Multiset Addr} {e : Event}
    (hinv : Inv Q m ⟨.last a h w, pool, held⟩) (he : e.At a) (hfed : e.Fed Q m) (hn : (m.store e).node a = h'.node w')
    (hfair : Fair A pos (.last a h w) (.last a h' w')) :
    Step A Q pos m ⟨.last a h w, pool, held⟩ e ⟨.last a h' w', pool, held⟩ := by
  have ha : a ∈ (T.last a h w).addrs := Multiset.mem_singleton_self a
  exact Step.at hinv he (Ghost.mem_owned.mpr (Or.inl ha)) (hinv.apart.2.1 a ha).1 hfed hn rfl rfl hfair

theorem Fair.last {h h' : Hdr} {w w' : Fin 16 → Ptr}
    (hget : ∀ k v, Under 0 pos k → A k v → v ≠ NULL → toVoid (w (sl k 0)) = v → toVoid (w' (sl k 0)) = v) :
    Fair A pos (.last a h w) (.last a h' w') := fun k v hk hkv hv hw => ⟨hget k v hk hkv hv hw, rfl⟩

/-- The slot of a key is filled. -/
theorem T.OK.fill {h : Hdr} {w : Fin 16 → Ptr} (hok : (T.last a h w).OK pos) (hu : Under 0 pos key)
    (hv : value ≠ NULL) {n : ℕ} (hn : n = used (Function.update w (sl key 0) (.val value))) :
    Inserted pos key value .ok (T.last a h w)
      (T.last a { h with nchildren := n } (Function.update w (sl key 0) (.val value))) where
  ok := by
    refine ⟨hn, fun i => ?_, fun h0 => ⟨(hok.key h0).1, ?_⟩⟩
    · by_cases hi : i = sl key 0
      · subst hi
        exact Or.inr ⟨value, hv, Function.update_self _ _ _⟩
      · rw [Function.update_of_ne hi]
        exact hok.val i
    · by_cases hi : sl h.onlyKey 0 = sl key 0
      · rw [hi, Function.update_self]
        simp
      · rw [Function.update_of_ne hi]
        exact (hok.key h0).2
  bare hb := by
    have hnull := used_eq_zero.mp (hn.symm.trans hb.1) (sl key 0)
    rw [Function.update_self] at hnull
    cases hnull
  keep k hk hu' := by
    rw [T.get_last, T.get_last, Function.update_of_ne fun hs => hk (eq_of_sl hu' hu hs)]
  self := by simp [toVoid]
  copy _ v hc i := by
    by_cases hi : i = sl key 0
    · rw [hi, Function.update_self, if_pos rfl]
    · rw [Function.update_of_ne hi, hc i, if_neg hi, if_neg hi]
  nil hn := by cases hn
  full _ := by
    refine Or.inr fun hz => used_ne_zero (i := sl key 0) ?_ (hn.symm.trans hz)
    rw [Function.update_self]
    simp
  fail he := absurd rfl he

theorem insert_zero (ok : ℕ → Bool) : InsertSpec ok 0 := by
  intro A Q pos m pool held a key value t hinv hptr hok hu hv hq hA
  cases t with
  | nil => cases hptr
  | last b h w =>
      cases hptr
      have hslot : (m.node a).nodes (sl key 0) = w (sl key 0) := by rw [hinv.rep, Hdr.node_nodes]
      have hcount : (m.node a).nchildren = h.nchildren := by rw [hinv.rep, Hdr.node_nchildren]
      have hfill : ∀ {m : Mem} {h : Hdr}, Inv Q m ⟨.last a h w, pool, held⟩ → Step A Q pos m ⟨.last a h w, pool, held⟩
          (.nodes a (sl key 0) (ofVoid value)) ⟨.last a h (Function.update w (sl key 0) (.val value)), pool, held⟩ := by
        intro m h hinv
        refine .last hinv (.nodes _ _) (fun b hb => ?_) ?_ (.last fun k v hk hkv _ hget => ?_)
        · rw [ofVoid_of_ne hv] at hb
          cases hb
        · have hn : m.node a = h.node w := hinv.rep
          simp only [Mem.store, m.setNode_self, hn, ofVoid_of_ne hv]
          rfl
        · by_cases hs : sl k 0 = sl key 0
          · obtain rfl := eq_of_sl hk hu hs
            rw [Function.update_self]
            exact (hA v hkv).symm
          · rw [Function.update_of_ne hs]
            exact hget
      by_cases hnull : w (sl key 0) = .null
      · have hs : Step A Q pos m ⟨.last a h w, pool, held⟩ (.nchildren a (h.nchildren + 1))
            ⟨.last a { h with nchildren := h.nchildren + 1 } w, pool, held⟩ := by
          refine .last hinv (.nchildren _) trivial ?_ (.last fun _ _ _ _ _ hget => hget)
          have hn : m.node a = h.node w := hinv.rep
          simp only [Mem.store, m.setNode_self, hn]
          rfl
        refine ⟨.ok, [.nchildren a (h.nchildren + 1), .nodes a (sl key 0) (ofVoid value)], _, pool, .read ?_,
          hok.fill hu hv (by rw [used_fill hnull (by simp), ← hok.count]), fun _ => rfl⟩
        rw [if_pos (hslot.trans hnull), hcount]
        exact .emit hs (.emit (hfill hs.inv) (.pure _ _ _))
      · refine ⟨.ok, [.nodes a (sl key 0) (ofVoid value)], _, pool, .read ?_,
          hok.fill hu hv (by rw [used_keep hnull (by simp), ← hok.count]), fun _ => rfl⟩
        rw [if_neg fun hz => hnull (hslot.symm.trans hz)]
        exact .emit (hfill hinv) (.pure _ _ _)

/-- `insert` at every level -/
theorem insert_spec (ok : ℕ → Bool) (l : ℕ) : InsertSpec ok l := by
  induction l with
  | zero => exact insert_zero ok
  | succ l ih => exact insert_succ ih

end Ptok.Tcradix
