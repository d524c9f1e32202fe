import Ptok.Tcradix.Concurrent.Walk
import Ptok.Tcradix.Invariant

/-!
# tcradix_get of a key that is present

Writers of other keys do not lead a reader astray: before they open a compressed node its value is stored below, and
what is on the way to a key that stays bound is neither unlinked nor used for anything else.
-/

namespace Ptok.Tcradix

open Lib

variable {A Q : Word → ℕ → Prop} {m : Mem} {g g' : Ghost TOP} {key : Word} {v : ℕ} {s : List (Act Loc Event)}
  {log : List Event} {l j : ℕ}

/-! ## The way of a reader -/

/-- A reader of the key comes to the second subtree. -/
inductive Along (k : Word) : {l : ℕ} → T l → {j : ℕ} → T j → Prop
  | refl {l : ℕ} (t : T l) : Along k t t
  | down {l j : ℕ} {a : Addr} {h : Hdr} {c : Fin 16 → T l} {u : T j} (h0 : h.onlyKey = 0)
      (hu : Along k (c (sl k (l + 1))) u) : Along k (.node a h c) u

theorem Along.get {t : T l} {u : T j} (h : Along key t u) : t.get key = u.get key := by
  induction h with
  | refl t => rfl
  | down h0 _ ih => exact (T.get_open h0).trans ih

theorem Along.rep {t : T l} {u : T j} (h : Along key t u) (hrep : Rep m t) : Rep m u := by
  induction h with
  | refl t => exact hrep
  | down _ _ ih => exact ih (hrep.2 _)

theorem Along.trans {i : ℕ} {t : T l} {u : T j} {w : T i} (h : Along key t u) (h' : Along key u w) : Along key t w := by
  induction h with
  | refl t => exact h'
  | down h0 _ ih => exact .down h0 (ih h')

theorem Along.stays {t t' : T l} {u : T j} (h : Along key t u) (hs : t.Stays key t') :
    ∃ u' : T j, Along key t' u' ∧ u.Stays key u' := by
  induction h with
  | refl t => exact ⟨t', .refl t', hs⟩
  | down h0 _ ih =>
      obtain ⟨h', c', rfl, -, hc⟩ := hs
      obtain ⟨h0', hc⟩ := hc h0
      obtain ⟨u', hu', hst⟩ := ih hc
      exact ⟨u', .down h0' hu', hst⟩

theorem T.Stays.trans {t t' t'' : T l} (h : t.Stays key t') (h' : t'.Stays key t'') : t.Stays key t'' := by
  induction t with
  | nil => trivial
  | last a hd w =>
      cases t' with
      | nil => cases h
      | last b hd' w' =>
          cases h
          exact h'
  | node a hd c ih =>
      obtain ⟨hd', c', rfl, hv, hc⟩ := h
      obtain ⟨hd'', c'', rfl, hv', hc'⟩ := h'
      refine ⟨hd'', c'', rfl, hv'.trans hv, fun h0 => ?_⟩
      obtain ⟨h0', hc⟩ := hc h0
      obtain ⟨h0'', hc'⟩ := hc' h0'
      exact ⟨h0'', ih _ hc hc'⟩

/-! ## Stores while the key stays bound -/

/-- The tree has the value. -/
structure Bound (key : Word) (v : ℕ) (m : Mem) (g : Ghost TOP) : Prop where
  rep : Rep m g.tree
  ptr : g.tree.ptr = .node 0
  get : g.tree.get key = v

/-- A store that readers of the key do not notice. -/
structure Keeps (key : Word) (v : ℕ) (m : Mem) (g : Ghost TOP) (e : Event) (g' : Ghost TOP) : Prop where
  bound : Bound key v (m.store e) g'
  stays : g.tree.Stays key g'.tree

theorem Stage.Step.keeps {e : Event} {s : Stage} (hs : Stage.Step A Q m ⟨g, none⟩ e s) (hb : Bound key v m g)
    (hA : A key v) (hv : v ≠ NULL) : ∃ g', s = ⟨g', none⟩ ∧ Keeps key v m g e g' := by
  generalize hg : (⟨g, none⟩ : Stage) = s₀ at hs
  cases hs with
  | poke =>
      cases hg
      exact ⟨g, rfl, ⟨hb.rep.congr fun _ _ => rfl, hb.ptr, hb.get⟩, .refl _ _⟩
  | inner _ hs =>
      cases hg
      obtain ⟨hget, hst⟩ := hs.fair key v (under_top key) hA hv hb.get
      exact ⟨_, rfl, ⟨hs.inv.rep, hs.ptr.trans hb.ptr, hget⟩, hst⟩
  | @value _ pool held key' v' v'' _ hmark =>
      cases hg
      have hget := hb.get
      rw [mark_get] at hget
      split at hget
      · exact absurd hA (hmark (hget ▸ hv) key v)
      · exact absurd hget.symm hv
  | key => cases hg

theorem Path.keeps {s : Stage} (hp : Path (Stage.Step A Q) m ⟨g, none⟩ log s) (hb : Bound key v m g) (hA : A key v)
    (hv : v ≠ NULL) : ∃ g', s = ⟨g', none⟩ ∧ Path (Keeps key v) m g log g' := by
  generalize hg : (⟨g, none⟩ : Stage) = s₀ at hp
  induction hp generalizing g with
  | nil m s => exact ⟨g, hg.symm, .nil m g⟩
  | cons hs _ ih =>
      subst hg
      obtain ⟨g₁, rfl, hk⟩ := hs.keeps hb hA hv
      obtain ⟨g₂, rfl, hp⟩ := ih hk.bound rfl
      exact ⟨g₂, rfl, .cons hk hp⟩

theorem Keeps.bounds (hp : Path (Keeps key v) m g log g') (hb : Bound key v m g) : Bound key v (storeAll m log) g' :=
  Lib.Path.inv (fun hs _ => hs.bound) hp hb

theorem Keeps.along (hp : Path (Keeps key v) m g log g') {u : T j} (hu : Along key g.tree u) :
    ∃ u' : T j, Along key g'.tree u' ∧ u.Stays key u' := by
  induction hp generalizing u with
  | nil m g => exact ⟨u, hu, .refl key u⟩
  | cons hs _ ih =>
      obtain ⟨u₁, hu₁, hst₁⟩ := hu.stays hs.stays
      obtain ⟨u₂, hu₂, hst₂⟩ := ih hu₁
      exact ⟨u₂, hu₂, hst₁.trans hst₂⟩

/-! ## The walk -/

/-- A reader stands at a node of level `l`. -/
def Guided (key : Word) (g : Ghost TOP) (l : ℕ) (a : Addr) : Prop := ∃ u : T l, Along key g.tree u ∧ u.ptr = .node a

theorem Guided.path {a : Addr} (h : Guided key g l a) (hp : Path (Keeps key v) m g log g') : Guided key g' l a := by
  obtain ⟨u, hu, ha⟩ := h
  obtain ⟨u', hu', hst⟩ := Keeps.along hp hu
  cases u with
  | nil => cases ha
  | last b hd w =>
      cases ha
      exact ⟨u', hu', hst⟩
  | node b hd c =>
      cases ha
      obtain ⟨hd', c', rfl, -⟩ := hst
      exact ⟨_, hu', rfl⟩

/-- What a reader loads at a node above the last level. -/
theorem Guided.node {a : Addr} (h : Guided key g (l + 1) a) (hb : Bound key v m g) (hv : v ≠ NULL) :
    ∃ hd c, Along key g.tree (T.node a hd c : T (l + 1)) ∧ m.node a = hd.node (T.ptrs c) ∧
      (hd.onlyKey ≠ 0 → hd.onlyKey = key ∧ hd.onlyVal = v) := by
  obtain ⟨u, hu, ha⟩ := h
  cases u with
  | nil => cases ha
  | node b hd c =>
      cases ha
      refine ⟨hd, c, hu, (hu.rep hb.rep).1, fun h0 => ?_⟩
      exact T.packed_eq h0 (hu.get.symm.trans hb.get) hv

/-- One level: the value is returned, or the reader comes to the child. -/
theorem Level.present {a : Addr} {w : Walk} (h : Level key (l + 1) a m s w) (hp : Path (Keeps key v) m g (stores s) g')
    (hb : Bound key v m g) (hv : v ≠ NULL) (ha : Guided key g (l + 1) a) :
    w = .ret v ∨ ∃ b, w = .next (.node b) ∧ Guided key g' l b := by
  cases h with
  | @found es es' s h0 hk =>
      simp only [stores_append, Prog.stores_map_store, stores_load] at hp
      obtain ⟨g₁, hp₁, hp⟩ := hp.split
      obtain ⟨g₂, hp₂, -⟩ := hp.split
      have hb₁ := Keeps.bounds hp₁ hb
      obtain ⟨hd, c, hu, hn, hkey⟩ := (ha.path hp₁).node hb₁ hv
      obtain ⟨u, hu₂, hst⟩ := Keeps.along hp₂ hu
      obtain ⟨hd', c', rfl, hval, -⟩ := hst
      rw [hn] at hk
      have hk : hd.onlyKey = key := hk
      rw [(hu₂.rep (Keeps.bounds hp₂ hb₁).rep).1, Hdr.node_onlyVal, hval, (hkey (by rwa [hk])).2]
      exact Or.inl rfl
  | @other es s h0 hk =>
      simp only [stores_append, Prog.stores_map_store, stores_load] at hp
      obtain ⟨g₁, hp₁, -⟩ := hp.split
      obtain ⟨hd, c, -, hn, hkey⟩ := (ha.path hp₁).node (Keeps.bounds hp₁ hb) hv
      rw [hn] at h0 hk
      exact absurd (hkey h0).1 hk
  | @slot es es' s h0 =>
      simp only [stores_append, Prog.stores_map_store, stores_load] at hp
      obtain ⟨g₁, hp₁, hp⟩ := hp.split
      obtain ⟨g₂, hp₂, hp₃⟩ := hp.split
      have hb₁ := Keeps.bounds hp₁ hb
      obtain ⟨hd, c, hu, hn, -⟩ := (ha.path hp₁).node hb₁ hv
      rw [hn] at h0
      -- the node stays open
      obtain ⟨u, hu₂, hst⟩ := Keeps.along hp₂ hu
      obtain ⟨hd', c', rfl, -, hst⟩ := hst
      obtain ⟨h0', -⟩ := hst h0
      have hb₂ := Keeps.bounds hp₂ hb₁
      have hchild := hu₂.trans (.down h0' (.refl _))
      have hget := hchild.get.symm.trans hb₂.get
      rw [(hu₂.rep hb₂.rep).1, Hdr.node_nodes, T.ptrs_apply]
      rcases (c' (sl key (l + 1))).ptr_cases with hnil | ⟨b, hb'⟩
      · rw [hnil] at hget
        exact absurd hget.symm hv
      · rw [hb']
        exact Or.inr ⟨b, rfl, Guided.path ⟨_, hchild, hb'⟩ hp₃⟩

theorem getLevels_present {a : Addr} {r : Except Stuck Walk} (hx : Prog.Exec Mem.load m s (getLevels key l a) r)
    (hp : Path (Keeps key v) m g (stores s) g') (hb : Bound key v m g) (hv : v ≠ NULL) (ha : Guided key g l a) :
    ∃ w, r = .ok w ∧ w.Gives v := by
  induction l generalizing m s g a with
  | zero =>
      have hx : Prog.Exec Mem.load m s (getSlot key 0 a) r := hx
      obtain ⟨es, s', rfl, rfl⟩ := getSlot_exec hx
      simp only [stores_append, Prog.stores_map_store, stores_load] at hp
      obtain ⟨g₁, hp₁, -⟩ := hp.split
      have hb₁ := Keeps.bounds hp₁ hb
      obtain ⟨u, hu, hptr⟩ := ha.path hp₁
      cases u with
      | nil => cases hptr
      | last b hd w =>
          cases hptr
          have hn : (storeAll m es).node a = hd.node w := hu.rep hb₁.rep
          have hget : toVoid (w (sl key 0)) = v := hu.get.symm.trans hb₁.get
          rw [hn, Hdr.node_nodes]
          refine ⟨_, rfl, ?_⟩
          rw [slotWalk, if_neg]
          · exact .next hget
          · intro hnull
            rw [hnull] at hget
            exact hv hget.symm
  | succ l ih =>
      obtain ⟨s₁, s₂, w, rfl, hl, hrest⟩ := getLevels_exec hx
      rw [stores_append] at hp
      obtain ⟨g₁, hp₁, hp₂⟩ := hp.split
      rcases hl.present hp₁ hb hv ha with rfl | ⟨b, rfl, hg⟩
      · exact ⟨_, hrest, .ret⟩
      · exact ih hrest hp₂ (Keeps.bounds hp₁ hb) hg

theorem getSlow_present {fuel : ℕ} {r : Except Stuck ℕ} (hx : Prog.Exec Mem.load m s (getSlow key fuel) r)
    (hp : Path (Keeps key v) m g (stores s) g') (hb : Bound key v m g) (hv : v ≠ NULL) :
    r = .ok v ∨ r = .error .fuel := by
  induction fuel generalizing m s g with
  | zero => exact Or.inr hx.of_ret.1
  | succ fuel ih =>
      obtain ⟨es, s', rfl, hround⟩ := getSlow_exec hx
      simp only [stores_append, Prog.stores_map_store, stores_load] at hp
      obtain ⟨g₁, hp₁, hp⟩ := hp.split
      have hb₁ := Keeps.bounds hp₁ hb
      rcases hround with hx | ⟨-, s₁, s₂, w, rfl, hx, hrest⟩
      · exact ih hx hp hb₁
      · rw [stores_append] at hp
        obtain ⟨g₂, hp₂, hp₃⟩ := hp.split
        obtain ⟨w, rfl, hw⟩ := getLevels_present hx hp₂ hb₁ hv ⟨g₁.tree, .refl _, hb₁.ptr⟩
        cases hw with
        | ret => exact Or.inl hrest
        | next hval =>
            obtain ⟨es', s₃, rfl, hrest⟩ := hrest
            simp only [stores_append, Prog.stores_map_store, stores_load] at hp₃
            obtain ⟨g₃, hp₃, hp₄⟩ := hp₃.split
            rcases hrest with hx | ⟨-, rfl⟩
            · exact ih hx hp₄ (Keeps.bounds hp₃ (Keeps.bounds hp₂ hb₁))
            · exact Or.inl (congrArg Except.ok hval)

/-! ## The result -/

/-- What is bound after some calls of writers. -/
def written (ws : List Write) : KMap := ws.foldl (fun f w => (answer f w.op).2) .empty

theorem Quiet.written {ok : ℕ → Bool} {ws : List Write} (h : Quiet ok (fun _ _ => True) m g) (hall : ∀ i, ok i = true)
    (hw : Writes ok m ws log) : ∃ g', Quiet ok (fun _ _ => True) (storeAll m log) g' ∧
      g'.tree.map = ws.foldl (fun f w => (answer f w.op).2) g.tree.map := by
  induction hw generalizing g with
  | nil m => exact ⟨g, h, rfl⟩
  | @cons m w ws r log log' _ hr _ ih =>
      obtain ⟨r', log₁, g₁, hdo, hq, he⟩ := h.write_does (A := fun _ _ => False) w (fun _ _ _ => trivial)
        (fun _ hf => hf.elim) (Or.inr fun _ _ hf => hf)
      cases hr.unique ⟨0, fun _ _ => hdo.run⟩
      obtain ⟨g', hq', hmap⟩ := ih hq
      refine ⟨g', by rwa [storeAll_append], hmap.trans ?_⟩
      rw [List.foldl_cons, he.answer hall (h.sure hall)]

theorem T.get_of_map {t : T TOP} (h : t.map key = some v) : t.get key = v ∧ v ≠ NULL := by
  unfold T.map at h
  split at h
  · cases h
  · cases h
    exact ⟨rfl, by assumption⟩

/-- A key that is bound when a lookup begins, and that nobody inserts or removes before it returns, is found. `ws` are
the calls that had returned when the lookup began, and `ws'` those that overlap it. -/
theorem tcradix_get_undisturbed {node : Addr → Node} {ws ws' : List Write} {before begun rest : List Event} {fuel : ℕ}
    {r : Except Stuck ℕ} (hw : Writes (fun _ => true) (tcradixNew node) ws before)
    (hw' : Writes (fun _ => true) (storeAll (tcradixNew node) before) ws' (begun ++ (stores s ++ rest)))
    (hx : Prog.Exec Mem.load (storeAll (tcradixNew node) (before ++ begun)) s (tcradixGet key fuel) r)
    (hbound : written ws key = some v)
    (hother : ∀ w, WriteBegun (fun _ => true) (storeAll (tcradixNew node) before) ws' (begun ++ stores s) w →
      w.key ≠ key) : r = .ok v ∨ r = .error .fuel := by
  obtain ⟨g, hq, hmap⟩ := (quiet_new _ _ node).written (fun _ => rfl) hw
  have hnew : Ghost.new.tree.map = .empty := by
    funext k
    exact if_pos (mark_get_null k)
  have hget : g.tree.map key = some v := by
    rw [hmap, hnew]
    exact hbound
  obtain ⟨hget, hv⟩ := T.get_of_map hget
  rw [← List.append_assoc] at hw'
  obtain ⟨s', -, -, -, -, hp, -⟩ := hq.path (A := fun k _ => k = key) hw' (fun _ _ _ => trivial)
    (fun w v hb hk => absurd hk (hother w hb)) (Or.inl fun _ => rfl)
  obtain ⟨g', rfl, hk⟩ := Path.keeps hp ⟨hq.rep, hq.ptr, hget⟩ rfl hv
  obtain ⟨g₁, hk₁, hk₂⟩ := hk.split
  rw [storeAll_append, tcradixGet_eq] at hx
  exact getSlow_present hx hk₂ (Keeps.bounds hk₁ ⟨hq.rep, hq.ptr, hget⟩) hv

/-! ## A run -/

/-- A key that differs from small ones in the first slice. -/
abbrev far : Word := 0x1000000000000000#64

/-- The stores of `tcradix_insert(c, far, 20)` after that of key 5: its value is stored one level lower, and the root is
opened. -/
def openLog : List Event :=
  [.writeStatus 3, .onlyVal 1 7, .zalloc true, .onlyKey 2 5, .onlyVal 2 7, .nchildren 2 0, .nodes 1 0 (.node 2),
    .nchildren 1 1, .onlyKey 0 0, .zalloc true, .onlyKey 3 far, .onlyVal 3 20, .nchildren 3 0, .nodes 0 1 (.node 3),
    .nchildren 0 2, .writeStatus 4]

/-- A reader of key 5 that has loaded `only_key` of the root before it is cleared. -/
def opening : List (Act Loc Event) :=
  .load .writeStatus :: .load (.onlyKey 0) :: (openLog.map .store ++ [.load (.onlyVal 0)])

theorem far_writes : Writes (fun _ => true) (storeAll blank (singleLog 5 7)) [.insert far 20] openLog := by
  have hr : Returns (fun _ => write (fun _ => true) (.insert far 20) (storeAll blank (singleLog 5 7)))
      (.errno .ok, openLog) := ⟨0, fun _ _ => rfl⟩
  show Writes _ _ _ (openLog ++ [])
  exact .cons trivial hr (.nil _)

theorem opening_exec : Prog.Exec Mem.load (storeAll blank (singleLog 5 7)) opening (tcradixGet 5 0) (.ok 7) :=
  Prog.exec_of_run rfl

theorem tcradix_get_undisturbed_opening : (Prog.run Mem.load (storeAll blank (singleLog 5 7)) opening
      (tcradixGet 5 0)).getD (.error .wildDeref) = .ok 7 ∨
    (Prog.run Mem.load (storeAll blank (singleLog 5 7)) opening (tcradixGet 5 0)).getD (.error .wildDeref) =
      .error .fuel := by
  have hfar : Writes (fun _ => true) (storeAll blank (singleLog 5 7)) [.insert far 20] ([] ++ (stores opening ++ [])) :=
    far_writes
  refine tcradix_get_undisturbed single_writes hfar opening_exec rfl fun w hw => ?_
  obtain rfl : w = .insert far 20 := by simpa using hw.mem
  decide

end Ptok.Tcradix
