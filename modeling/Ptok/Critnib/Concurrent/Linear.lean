import Ptok.Lib.Order
import Ptok.Critnib.Concurrent.Writes

/-!
# One store of a call changes the map

Between any two stores of a run the tree stands for the map after some of the calls, and every node of it has a leaf
below.
-/

namespace Ptok.Critnib

open Lib

variable {m m' : Mem} {g g₁ g' : Ghost} {e : Event} {log l l' : List Event} {d : Fin 16} {ok : ℕ → Bool} {ops : List Op}

/-! ## One store -/

theorem Step.del_eq (hs : Step m g e g') (he : e.IsDraw = false) : (m.store e).del = m.del := by
  unfold Mem.del
  rw [hs.removeCount, he]
  rfl

/-- A leaf that is parked stays parked until the next number is drawn. -/
theorem Step.pl_eq (hs : Step m g e g') (he : e.IsDraw = false) (hd : g.pl d ≠ 0) : g'.pl d = g.pl d := by
  cases hs with
  | draw => cases he
  | @unlink key k d' hfoc hkey hd' hpl =>
      refine Function.update_of_ne ?_ _ _
      rintro rfl
      exact hd hpl
  | _ => rfl

theorem Inv.leaf_ne_zero (h : Inv m g) {k : Addr} (hk : .leaf k ∈ g.tree.leaves) : k ≠ 0 := by
  have hin : Ptr.leaf k ∈ leavesOf m := by
    rw [← h.leaves]
    simp only [Ghost.leaves, Multiset.mem_add]
    exact Or.inl (Or.inl (Or.inl hk))
  obtain ⟨k', hk', -, he⟩ := mem_leavesOf.mp hin
  cases he
  exact hk'.ne'

theorem Inv.focus_ne_zero (h : Inv m g) {sel : Hdr → (Fin 16 → T) → Option (Fin 16)} {k : Addr} {l : Leaf}
    (hfoc : Tree.focus sel g.tree = .leaf (.leaf k) l) : k ≠ 0 :=
  h.leaf_ne_zero (Tree.Sub.mem_leaves (Tree.sub_focus sel g.tree) (by simp [hfoc]))

/-- Every store but one keeps the leaves that are in the tree. That one parks a leaf. -/
theorem Step.keeps_or (hs : Step m g e g') (h : Inv m g) :
    (∀ l, g.tree.Has l → g'.tree.Has l) ∨ ∃ d, d + 1 = m.del ∧ g.pl d = 0 ∧ g'.pl d ≠ 0 := by
  cases hs with
  | @linkLeaf key k fl hfoc hkey hfl =>
      left
      intro l hl
      refine (Coding.has_plug_of (X := fun l => l = m.leaf k) (fun l => ?_) l).mpr (Or.inr hl)
      simp [hfoc, eq_comm]
  | @linkSplit key path k a fl fn hbr hne hpath hat hpos hkey hfl hfn hrep =>
      left
      intro l hl
      exact (Coding.has_plug_of (X := fun l => l = m.leaf k) (fun l => splitTree_has hat l) l).mpr (Or.inr hl)
  | @unlink key k d hfoc hkey hd hpl =>
      right
      exact ⟨d, hd, hpl, by simpa using h.focus_ne_zero hfoc⟩
  | @collapse key a hdr c o d hfoc hempty ho honly hd hpn =>
      left
      intro l hl
      refine (Coding.has_plug_of (X := fun _ => False) (fun l => ?_) l).mpr (Or.inr hl)
      rw [hfoc, false_or, Tree.has_node]
      constructor
      · exact fun hl => ⟨o, hl⟩
      · rintro ⟨i, hi⟩
        by_cases hio : i = o
        · exact hio ▸ hi
        · rw [honly i hio] at hi
          exact hi.elim
  | _ => exact Or.inl fun l hl => hl

/-- Only the links bring a leaf into the tree, and the writer held it. -/
theorem Step.has_of (hs : Step m g e g') (hfl : g.fl = 0) {l : Leaf} (hl : g'.tree.Has l) : g.tree.Has l := by
  cases hs with
  | @linkLeaf key k fl hfoc hkey hfl' => simp [hfl] at hfl'
  | @linkSplit key path k a fl fn hbr hne hpath hat hpos hkey hfl' hfn hrep => simp [hfl] at hfl'
  | @unlink key k d hfoc hkey hd hpl => exact (Coding.has_plug_sub hl).resolve_left id
  | @collapse key a hdr c o d hfoc hempty ho honly hd hpn =>
      rcases Coding.has_plug_sub hl with hl | hl
      · have hnode : (Tree.focus (Coding.toParent nibs key) g.tree).Has l := by
          rw [hfoc]
          exact ⟨o, hl⟩
        exact Coding.has_of_focus hnode
      · exact hl
  | _ => exact hl

/-- A store that can give the writer a leaf: a number is drawn, or a leaf is taken from a pool or malloc. -/
def Event.Feeds : Event → Bool
  | .removeCount _ => true
  | .mallocLeaf _ => true
  | .deletedLeaf _ => true
  | _ => false

theorem Step.fl_eq (hs : Step m g e g') (he : e.Feeds = false) (hfl : g.fl = 0) : g'.fl = 0 := by
  cases hs with
  | draw => cases he
  | mallocLeaf => cases he
  | popLeaf => cases he
  | pushLeaf => cases he
  | @linkLeaf key k fl hfoc hkey hfl' => simp [hfl] at hfl'
  | @linkSplit key path k a fl fn hbr hne hpath hat hpos hkey hfl' hfn hrep => simp [hfl] at hfl'
  | _ => exact hfl

/-- Every node has a leaf below it. A node may have a single child, but then a leaf was parked under the number drawn
last. -/
structure Fair (m : Mem) (g : Ghost) : Prop where
  fed : Coding.Fed g.tree
  once : Coding.Branching g.tree ∨ ∃ d, d + 1 = m.del ∧ g.pl d ≠ 0

theorem Step.fair (hs : Step m g e g') (h : Inv m g) (hf : Fair m g)
    (he : e.IsDraw = false ∨ Coding.Branching g.tree) : Fair (m.store e) g' := by
  have hdel := hs.del_eq
  -- what is parked stays parked, and the number is the same
  have hparked : e.IsDraw = false → (∃ d, d + 1 = m.del ∧ g.pl d ≠ 0) → ∃ d, d + 1 = (m.store e).del ∧ g'.pl d ≠ 0 := by
    rintro he ⟨d, hd, hpl⟩
    exact ⟨d, by rw [hs.del_eq he, hd], by rwa [hs.pl_eq he hpl]⟩
  have hsame : g'.tree = g.tree → Fair (m.store e) g' := by
    intro ht
    refine ⟨ht ▸ hf.fed, ?_⟩
    rw [ht]
    rcases he with he | hbr
    · exact hf.once.imp id (hparked he)
    · exact Or.inl hbr
  have hcell : ∀ {sel u}, g'.tree = Tree.plug sel u g.tree → Coding.Fed u → u ≠ .nil → e.IsDraw = false →
      (Coding.Branching g.tree → Coding.Branching u) → Fair (m.store e) g' := by
    intro sel u ht hu hne he hbr
    refine ⟨ht ▸ hf.fed.plug hu hne, ?_⟩
    rw [ht]
    exact hf.once.imp (fun hb => hb.plug (hbr hb) hne) (hparked he)
  cases hs with
  | @linkLeaf key k fl hfoc hkey hfl => exact hcell rfl trivial (by simp) rfl fun _ => trivial
  | @linkSplit key path k a fl fn hbr hne hpath hat hpos hkey hfl hfn hrep =>
      have hfit := ((Step.linkSplit hbr hne hpath hat hpos hkey hfl hfn hrep).inv h).fits
      have hwf : nibs.WF (splitTree a path key k (m.leaf k) (Tree.focus (insertSel key) g.tree)) 0 := by
        refine splitTree_wf ⟨?_, hbr.focus⟩ hne (fun _ _ q hq => absurd hq (Nat.not_lt_zero q)) hpath hat hpos hkey
        obtain ⟨b, -, hb⟩ := h.fits.focus (insertSel key)
        exact hb.mono (Nat.zero_le b)
      exact hcell rfl hwf.branching.fed (by simp [splitTree]) rfl fun _ => hwf.branching
  | @unlink key k d hfoc hkey hd hpl =>
      have hbr : Coding.Branching g.tree := by
        refine hf.once.resolve_right ?_
        rintro ⟨d', hd', hpl'⟩
        rw [add_right_cancel (hd'.trans hd.symm)] at hpl'
        exact hpl' hpl
      exact ⟨hbr.fed_plug_nil, Or.inr ⟨d, by rw [hdel rfl, hd], by simpa using h.focus_ne_zero hfoc⟩⟩
  | @collapse key a hdr c o d hfoc hempty ho honly hd hpn =>
      have hsub := (Tree.sub_focus (Coding.toParent nibs key) g.tree)
      rw [hfoc] at hsub
      refine hcell rfl ((hf.fed.sub hsub).2 o) ho rfl fun hb => ?_
      exact (hb.sub hsub).2 o
  | _ => exact hsame rfl

/-! ## Paths -/

theorem Path.pl_eq (hp : Path m g log g') (hd : draws log = 0) (h : g.pl d ≠ 0) : g'.pl d = g.pl d := by
  induction hp with
  | nil => rfl
  | @cons m g g₁ g₂ e log hs _ ih =>
      have he := hs.pl_eq (not_isDraw_of_draws hd (by simp)) h
      rw [← he] at h ⊢
      exact ih (List.countP_eq_zero.mpr fun e he => List.countP_eq_zero.mp hd e (by simp [he])) h

/-- Nothing leaves the tree where nothing more is parked in the end. -/
theorem Path.keeps (hp : Path m g log g') (h : Inv m g) (hd : draws log = 0) (hpl : ∀ d, g.pl d = 0 → g'.pl d = 0)
    {l : Leaf} (hl : g.tree.Has l) : g'.tree.Has l := by
  induction hp with
  | nil => exact hl
  | @cons m g g₁ g₂ e log hs t ih =>
      have he := not_isDraw_of_draws hd (List.mem_cons_self ..)
      have hlog : draws log = 0 :=
        List.countP_eq_zero.mpr fun e he => List.countP_eq_zero.mp hd e (by simp [he])
      rcases hs.keeps_or h with hkeep | ⟨d, -, hzero, hne⟩
      · refine ih (hs.inv h) hlog (fun d hd => hpl d ?_) (hkeep l hl)
        by_contra hne
        exact hne (hs.pl_eq he hne ▸ hd)
      · exact absurd (hpl d hzero) (t.pl_eq hlog hne ▸ hne)

/-- Nothing comes into the tree where the writer has no leaf. -/
theorem Path.has_of (hp : Path m g log g') (he : ∀ e ∈ log, e.Feeds = false) (hfl : g.fl = 0) :
    g'.fl = 0 ∧ ∀ l, g'.tree.Has l → g.tree.Has l := by
  induction hp with
  | nil => exact ⟨hfl, fun _ hl => hl⟩
  | cons hs _ ih =>
      obtain ⟨hfl', hl'⟩ := ih (fun e h => he e (by simp [h])) (hs.fl_eq (he _ (by simp)) hfl)
      exact ⟨hfl', fun l hl => hs.has_of hfl (hl' l hl)⟩

theorem Path.fair (hp : Path m g log g') (h : Inv m g) (hf : Fair m g) (hd : draws log = 0) :
    Fair (storeAll m log) g' := by
  induction hp with
  | nil => exact hf
  | @cons m g g₁ g₂ e log hs _ ih =>
      refine ih (hs.inv h) (hs.fair h hf (Or.inl (not_isDraw_of_draws hd (by simp)))) ?_
      exact List.countP_eq_zero.mpr fun e he => List.countP_eq_zero.mp hd e (by simp [he])

theorem Quiet.fair (h : Quiet m g) : Fair m g := ⟨h.wf.branching.fed, Or.inl h.wf.branching⟩

/-! ## The stores of one call -/

theorem T.map_le {t t' : T} (ht : nibs.Routed t) (ht' : nibs.Routed t') (h : ∀ l, t.Has l → t'.Has l) (k : Word)
    (v : ℕ) (hv : t.map k = some v) : t'.map k = some v := by
  obtain ⟨l, hl, hk, hlv⟩ := (T.map_eq_some ht).mp hv
  exact (T.map_eq_some ht').mpr ⟨l, h l hl, hk, hlv⟩

/-- The tree and the map it stands for. -/
structure Shows (m : Mem) (f : KMap) (g : Ghost) : Prop where
  inv : Inv m g
  fed : Coding.Fed g.tree
  map : g.tree.map = f

theorem Quiet.shows (h : Quiet m g) : Shows m g.tree.map g := ⟨h.toInv, h.fair.fed, rfl⟩

theorem Shows.unique {f f' : KMap} (h : Shows m f g) (h' : Shows m f' g') : f = f' := by
  rw [← h.map, ← h'.map, h.inv.rep.unique h'.inv.rep]

/-- The store with this number changes the map; before it the map is `f`, and from then on `f'`. -/
def Switches (m : Mem) (log : List Event) (f f' : KMap) (s : ℕ) : Prop :=
  ∀ l l', log = l ++ l' → ∃ g, Shows (storeAll m l) (if l.length < s then f else f') g

/-- The map goes from one to the other in steps that all have one direction, and there is nothing in between. -/
theorem Path.switches (hp : Path m g log g') (h : Inv m g) (hf : Fair m g) (hd : draws log = 0)
    {r : KMap → KMap → Prop} (hanti : ∀ {f f'}, r f f' → r f' f → f = f')
    (hends : ∀ {f}, r g.tree.map f → r f g'.tree.map → f = g.tree.map ∨ f = g'.tree.map)
    (hdir : ∀ {l c l' g₁ g₂}, log = l ++ (c ++ l') → Path m g l g₁ → Path (storeAll m l) g₁ c g₂ →
      Path (storeAll (storeAll m l) c) g₂ l' g' → r g₁.tree.map g₂.tree.map) :
    ∃ s, Switches m log g.tree.map g'.tree.map s := by
  classical
  have hshows : ∀ {l l'}, log = l ++ l' → ∃ g₁, Path m g l g₁ ∧ Path (storeAll m l) g₁ l' g' ∧
      Shows (storeAll m l) g₁.tree.map g₁ ∧ (g₁.tree.map = g.tree.map ∨ g₁.tree.map = g'.tree.map) := by
    rintro l l' rfl
    obtain ⟨g₁, hp₁, hp₂⟩ := hp.split
    obtain ⟨hd, -⟩ := Nat.add_eq_zero_iff.mp ((draws_append l l').symm.trans hd)
    refine ⟨g₁, hp₁, hp₂, ⟨hp₁.inv h, (hp₁.fair h hf hd).fed, rfl⟩, hends ?_ ?_⟩
    · exact hdir (l := []) rfl (.nil m g) hp₁ hp₂
    · exact hdir (by simp : l ++ l' = l ++ (l' ++ [])) hp₁ hp₂ (.nil _ _)
  let P : ℕ → Prop := fun t => ∃ l l' g₁, log = l ++ l' ∧ l.length = t ∧ Shows (storeAll m l) g'.tree.map g₁
  by_cases hex : ∃ t, P t
  · refine ⟨Nat.find hex, fun l l' hlog => ?_⟩
    obtain ⟨g₁, hp₁, hp₂, hs, hmap⟩ := hshows hlog
    refine ⟨g₁, hs.inv, hs.fed, ?_⟩
    split
    · rename_i hlt
      refine hmap.resolve_right fun hmap => Nat.find_min hex hlt ?_
      exact ⟨l, l', g₁, hlog, rfl, hmap ▸ hs⟩
    · rename_i hge
      -- from the first such moment on it stays so
      obtain ⟨l₀, l₁, g₀, hlog₀, hlen, hs₀⟩ := Nat.find_spec hex
      obtain ⟨c, rfl⟩ : l₀ <+: l := by
        have hpre : l₀ <+: log := ⟨l₁, hlog₀.symm⟩
        refine List.prefix_of_prefix_length_le hpre ⟨l', hlog.symm⟩ ?_
        omega
      rw [List.append_assoc] at hlog
      obtain ⟨g₂, hp₃, hp₄, hs₃, -⟩ := hshows hlog
      obtain ⟨g₃, hp₅, hp₆⟩ := hp₄.split
      rw [← storeAll_append] at hp₆
      have hs₅ := ((hp₃.append hp₅).inv h).rep.unique hs.inv.rep
      have hfwd := hdir hlog hp₃ hp₅ (by rwa [storeAll_append] at hp₆)
      have hback := hdir (by simp [hlog] : log = (l₀ ++ c) ++ (l' ++ [])) (hp₃.append hp₅) hp₆ (.nil _ _)
      rw [hs₃.unique hs₀, hs₅] at hfwd
      rw [hs₅] at hback
      exact hanti hback hfwd
  · refine ⟨log.length + 1, fun l l' hlog => ?_⟩
    obtain ⟨g₁, hp₁, hp₂, hs, hmap⟩ := hshows hlog
    have hlen : l.length < log.length + 1 := by
      simp [hlog]
    rw [if_pos hlen]
    refine ⟨g₁, hs.inv, hs.fed, hmap.resolve_right fun hmap => hex ⟨_, l, l', g₁, hlog, rfl, hmap ▸ hs⟩⟩

theorem pendingDelLeaves_storeAll (h : ∀ e ∈ log, e.OfRing = false) :
    (storeAll m log).pendingDelLeaves = m.pendingDelLeaves := by
  induction log generalizing m with
  | nil => rfl
  | cons e log ih =>
      have hset : ∀ n f, (m.setNode n f).pendingDelLeaves = m.pendingDelLeaves := by
        intro n f
        cases n <;> rfl
      have hstore : (m.store e).pendingDelLeaves = m.pendingDelLeaves := by
        have he := h e (by simp)
        cases e with
        | slot s p =>
            obtain ⟨rt, nd, hs⟩ := slot_frame m s p
            rw [hs]
        | path n w => exact hset n fun x => { x with path := w }
        | shift n w => exact hset n fun x => { x with shift := w }
        | pendingDelLeaf d k => cases he
        | mallocNode ok => cases ok <;> rfl
        | mallocLeaf ok => cases ok <;> rfl
        | _ => rfl
      exact (ih fun e he => h e (by simp [he])).trans hstore

/-- The middle of a path on which nothing leaves the tree. -/
theorem Path.middle (hp : Path m g l g₁) (hp' : Path (storeAll m l) g₁ l' g') (h : Inv m g) (hd : draws l = 0)
    (hd' : draws l' = 0) (hpl : ∀ d, g.pl d = 0 → g'.pl d = 0) :
    (∀ l, g.tree.Has l → g₁.tree.Has l) ∧ ∀ l, g₁.tree.Has l → g'.tree.Has l := by
  refine ⟨fun _ => hp.keeps h hd fun d h0 => ?_, fun _ => hp'.keeps (hp.inv h) hd' fun d h0 => hpl d ?_⟩
  · by_contra hne
    exact hne (hp'.pl_eq hd' hne ▸ hpl d h0)
  · by_contra hne
    exact hne (hp.pl_eq hd hne ▸ h0)

theorem Quiet.insert_switches (h : Quiet m g) {key : Word} {value : ℕ} {e : Errno}
    (hr : Returns (fun fuel => critnibInsert ok fuel key value m) (e, log)) :
    ∃ g', Quiet (storeAll m log) g' ∧ ∃ s, Switches m log g.tree.map g'.tree.map s := by
  obtain ⟨e', log', g', hdo, hq, -, -, hins⟩ := critnibInsert_spec h ok key value
  obtain ⟨rfl, hp⟩ := Does.of_returns hdo hr
  have hrun := (hdo _ (Nat.lt_succ_self _)).run
  have hring := NoRing.critnibInsert ok _ key value m e' _ hrun
  have hdraws := (NoRing.critnibInsert ok _ key value).noDraw.draws hrun
  have hpl : ∀ d, g.pl d = 0 → g'.pl d = 0 := by
    intro d hd
    rwa [hq.pl, pendingDelLeaves_storeAll hring, ← h.pl]
  have hne : ∀ k, k ≠ key → g.tree.map k = g'.tree.map k := by
    intro k hk
    generalize g'.tree.map = f' at hins
    cases hins with
    | noLeaf _ _ _ hf => rw [hf]
    | bound _ _ _ hf => rw [hf]
    | noNode _ _ _ _ hf => rw [hf]
    | new _ _ _ hf => rw [hf, KMap.bind_of_ne _ _ hk]
  refine ⟨g', hq, hp.switches (r := fun f f' => ∀ k v, f k = some v → f' k = some v) h.toInv h.fair hdraws map_antisymm
    (fun h h' => eq_or_eq_of_between h h' hne) ?_⟩
  -- no leaf leaves the tree
  rintro l c l' g₁ g₂ rfl hp₁ hp₂ hp₃
  simp only [draws_append] at hdraws
  have hpl₁ : ∀ d, g₁.pl d = 0 → g'.pl d = 0 := by
    intro d hd
    refine hpl d ?_
    by_contra hne
    exact hne (hp₁.pl_eq (by omega) hne ▸ hd)
  have hinv := hp₁.inv h.toInv
  obtain ⟨hgrow, -⟩ := hp₂.middle hp₃ hinv (by omega) (by omega) hpl₁
  exact T.map_le hinv.fits.routed (hp₂.inv hinv).fits.routed hgrow

/-- No store feeds the writer with a leaf. -/
abbrev NoFeed {α : Type} (x : W α) : Prop := Wr.Emits (fun e => e.Feeds = false) x

theorem NoFeed.shrink (del : Fin 16) (s : Slot Ptr (Fin 16)) (n : Ptr) (k : Addr) : NoFeed (shrink del s n k) := by
  refine .bind (.query _) fun x => ?_
  split
  · exact .bind (.read _) fun _ => .bind (.emit rfl) fun _ => .pure _
  · exact .stuck _
  · exact .bind (.emit rfl) fun _ => .bind (.read _) fun _ => .bind (.emit rfl) fun _ => .bind (.emit rfl) fun _ =>
      .pure _

theorem NoFeed.removeRoot (del : Fin 16) (key : Word) (k : Addr) : NoFeed (removeRoot del key k) := by
  refine .bind (.read _) fun x => ?_
  split
  · exact .bind (.emit rfl) fun _ => .bind (.read _) fun _ => .bind (.emit rfl) fun _ => .pure _
  · exact .pure _

/-- After the recycling a remove has no leaf in its hands and takes none. -/
theorem Quiet.remove_noFeed (h : Quiet m g) (hroot : m.root ≠ .null) {fuel : ℕ} {key : Word} {v : ℕ}
    (hr : critnibRemove fuel key m = .ok (v, recycleLog m ++ log)) : ∀ e ∈ log, e.Feeds = false := by
  obtain ⟨n, l, l', hn, hr, hlog⟩ := Wr.bind_ok.mp hr
  cases hn
  rw [List.nil_append] at hlog
  subst hlog
  dsimp only at hr
  rw [if_neg hroot] at hr
  obtain ⟨del, l₁, l₂, hrec, hr, hlog⟩ := Wr.bind_ok.mp hr
  obtain ⟨g₁, hdo, -⟩ := recycle_spec h
  cases hrec.symm.trans hdo.run
  obtain rfl := List.append_cancel_left hlog
  suffices hemits : NoFeed _ from hemits _ _ _ hr
  split
  · exact .removeRoot _ key _
  · refine .bind (.query _) fun r => ?_
    split
    · exact .pure _
    · refine .bind (.read _) fun x => ?_
      split
      · exact .pure _
      · exact .bind (.query _) fun _ => .bind (.emit rfl) fun _ => NoFeed.shrink _ _ _ _

/-- While a number is drawn and what was parked is recycled, the tree has the same leaves. -/
theorem Quiet.recycle_shows (h : Quiet m g) (hp : Path m g (l ++ l') g') (hlog : recycleLog m = l ++ l')
    (hq : Quiet (storeAll m (l ++ l')) g') (ht : g'.tree = g.tree) : ∃ g₁, Shows (storeAll m l) g.tree.map g₁ := by
  cases l with
  | nil => exact ⟨g, h.shows⟩
  | cons e l =>
      obtain ⟨rfl, htail⟩ := List.cons_eq_cons.mp hlog
      have hpl : ∀ d, Function.update g.pl m.del 0 d = 0 → g'.pl d = 0 := by
        intro d hd
        obtain ⟨dn, nd, dl, lf, hframe⟩ := recycleLog_frame m
        rw [hq.pl, ← hlog, hframe]
        rwa [h.pl] at hd
      have hdraws : draws (l ++ l') = 0 := by
        obtain ⟨g₁, hdo, -⟩ := recycle_spec h
        have hone := recycle_oneDraw m _ _ hdo.run
        rw [hlog, List.cons_append, draws_removeCount] at hone
        omega
      obtain ⟨hd, hd'⟩ := Nat.add_eq_zero_iff.mp ((draws_append l l').symm.trans hdraws)
      cases hp with
      | cons hs t =>
          cases hs with
          | held hh => cases hh
          | draw =>
              have hs := Step.draw (m := m) g
              have hinv := hs.inv h.toInv
              obtain ⟨g₂, hp₁, hp₂⟩ := t.split
              obtain ⟨hgrow, hgrow'⟩ := hp₁.middle hp₂ hinv hd hd' hpl
              refine ⟨g₂, hp₁.inv hinv, ?_, ?_⟩
              · exact (hp₁.fair hinv (hs.fair h.toInv h.fair (Or.inr h.wf.branching)) hd).fed
              · exact T.map_congr h.fits.routed (hp₁.inv hinv).fits.routed fun l =>
                  ⟨fun hl => ht ▸ hgrow' l hl, hgrow l⟩

theorem Quiet.remove_switches (h : Quiet m g) {key : Word} {v : ℕ}
    (hr : Returns (fun fuel => critnibRemove fuel key m) (v, log)) :
    ∃ g', Quiet (storeAll m log) g' ∧ ∃ s, Switches m log g.tree.map g'.tree.map s := by
  by_cases hroot : m.root = .null
  · have hnil : Returns (fun fuel => critnibRemove fuel key m) (NULL, []) := by
      refine ⟨0, fun fuel _ => ?_⟩
      simp [critnibRemove, hroot, Except.bind, Except.map]
    cases hr.unique hnil
    refine ⟨g, h, 0, ?_⟩
    rintro l l' hl
    obtain ⟨rfl, rfl⟩ := List.append_eq_nil_iff.mp hl.symm
    exact ⟨g, h.shows⟩
  obtain ⟨v', log', g₁, g', hrun, hp₁, hdrawn, ht, hp₂, hq, -, -, hrem⟩ := critnibRemove_drawn h hroot key
  have hret : Returns (fun fuel => critnibRemove fuel key m) (v', recycleLog m ++ log') :=
    ⟨g.tree.height + 1, fun fuel hf => hrun fuel hf⟩
  cases hr.unique hret
  rw [← storeAll_append] at hq
  -- after the recycling the leaf of the key may be unlinked, and no leaf comes into the tree
  have hfeed := h.remove_noFeed hroot (hrun _ (Nat.lt_succ_self _))
  have hdraws : draws log' = 0 := by
    refine List.countP_eq_zero.mpr fun e he hd => ?_
    have := hfeed e he
    cases e <;> cases hd
    cases this
  have hne : ∀ k, k ≠ key → g'.tree.map k = g₁.tree.map k := by
    intro k hk
    rw [hrem.map, KMap.unbind_of_ne _ hk, ht]
  obtain ⟨s, hs⟩ := hp₂.switches (r := fun f f' => ∀ k v, f' k = some v → f k = some v) hdrawn.toInv hdrawn.toQuiet.fair
    hdraws (fun h h' => map_antisymm h' h) (fun h h' => (eq_or_eq_of_between h' h hne).symm) (by
      rintro l c l' g₂ g₃ rfl hp₃ hp₄ -
      obtain ⟨hfl, -⟩ := hp₃.has_of (fun e he => hfeed e (by simp [he])) hdrawn.fl
      obtain ⟨-, hless⟩ := hp₄.has_of (fun e he => hfeed e (by simp [he])) hfl
      have hinv := hp₃.inv hdrawn.toInv
      exact T.map_le (hp₄.inv hinv).fits.routed hinv.fits.routed hless)
  rw [ht] at hs
  refine ⟨g', hq, (recycleLog m).length + s, fun l l' hlog => ?_⟩
  rcases List.append_eq_append_iff.mp hlog with ⟨c, rfl, rfl⟩ | ⟨c, hrec, rfl⟩
  · obtain ⟨g₂, hshows⟩ := hs c l' rfl
    refine ⟨g₂, ?_⟩
    rw [storeAll_append]
    simpa using hshows
  · have hq₁ : Quiet (storeAll m (l ++ c)) g₁ := hrec ▸ hdrawn.toQuiet
    obtain ⟨g₂, hshows⟩ := h.recycle_shows (hrec ▸ hp₁) hrec hq₁ ht
    refine ⟨g₂, ?_⟩
    split
    · exact hshows
    · -- there is nothing left to recycle
      obtain ⟨rfl, rfl⟩ : c = [] ∧ s = 0 := by
        rename_i hge
        rw [hrec, List.length_append] at hge
        exact ⟨List.eq_nil_of_length_eq_zero (by omega), by omega⟩
      obtain ⟨g₃, hs₃⟩ := hs [] log' rfl
      rw [List.append_nil] at hrec
      rw [storeAll_nil, hrec] at hs₃
      have hmap : g.tree.map = g'.tree.map := by simpa using hshows.unique hs₃
      rwa [hmap] at hshows

/-! ## The stores of a run -/

/-- The calls that count when these stores have been made: all that are done, and of the others only what has begun. -/
structure Upto (ok : ℕ → Bool) (m : Mem) (ops : List Op) (l : List Event) (ops₁ : List Op) : Prop where
  calls : ops₁ <+: ops
  done : ∀ ops₀ log₀, ops₀ <+: ops → Writes ok m ops₀ log₀ → log₀ <+: l → ops₀ <+: ops₁
  begun : ∀ ops₀ op log₀, ops₀ ++ [op] <+: ops₁ → Writes ok m ops₀ log₀ → log₀ <+: l

/-- A call at the head of a run. -/
structure Head (ok : ℕ → Bool) (m : Mem) (op : Op) (log : List Event) : Prop where
  cons : ∀ {ops log'}, Writes ok (storeAll m log) ops log' → Writes ok m (op :: ops) (log ++ log')
  uncons : ∀ {ops log₀}, Writes ok m (op :: ops) log₀ → ∃ log', log₀ = log ++ log' ∧ Writes ok (storeAll m log) ops log'

theorem Head.insert {key : Word} {value : ℕ} {e : Errno}
    (hr : Returns (fun fuel => critnibInsert ok fuel key value m) (e, log)) : Head ok m (.insert key value) log where
  cons := .insert hr
  uncons hw := by
    cases hw with
    | insert hr' t =>
        cases hr.unique hr'
        exact ⟨_, rfl, t⟩

theorem Head.remove {key : Word} {v : ℕ} (hr : Returns (fun fuel => critnibRemove fuel key m) (v, log)) :
    Head ok m (.remove key) log where
  cons := .remove hr
  uncons hw := by
    cases hw with
    | remove hr' t =>
        cases hr.unique hr'
        exact ⟨_, rfl, t⟩

variable {op : Op} {ops₁ : List Op} {c : List Event}

/-- The first call is at work. -/
theorem Head.upto (h : Head ok m op (l ++ c)) (hc : c ≠ []) (h₁ : ops₁ <+: [op]) : Upto ok m (op :: ops) l ops₁ where
  calls := h₁.trans (List.prefix_append [op] ops)
  done ops₀ log₀ hops hw hlog := by
    cases ops₀ with
    | nil => exact List.nil_prefix
    | cons op' ops₀ =>
        obtain ⟨rfl, -⟩ := List.cons_prefix_cons.mp hops
        obtain ⟨log', rfl, -⟩ := h.uncons hw
        have hlen := hlog.length_le
        have := List.length_pos_iff.mpr hc
        simp only [List.length_append] at hlen
        omega
  begun ops₀ op' log₀ hops hw := by
    have hlen := (hops.trans h₁).length_le
    have hnil : ops₀ = [] := List.eq_nil_of_length_eq_zero (by simpa using hlen)
    subst hnil
    cases hw
    exact List.nil_prefix

/-- The first call is done. -/
theorem Head.upto_cons (h : Head ok m op log) (hu : Upto ok (storeAll m log) ops c ops₁) :
    Upto ok m (op :: ops) (log ++ c) (op :: ops₁) where
  calls := List.cons_prefix_cons.mpr ⟨rfl, hu.calls⟩
  done ops₀ log₀ hops hw hlog := by
    cases ops₀ with
    | nil => exact List.nil_prefix
    | cons op' ops₀ =>
        obtain ⟨rfl, hrest⟩ := List.cons_prefix_cons.mp hops
        obtain ⟨log', rfl, hw'⟩ := h.uncons hw
        exact List.cons_prefix_cons.mpr ⟨rfl, hu.done ops₀ log' hrest hw' ((List.prefix_append_right_inj log).mp hlog)⟩
  begun ops₀ op' log₀ hops hw := by
    cases ops₀ with
    | nil =>
        cases hw
        exact List.nil_prefix
    | cons op'' ops₀ =>
        obtain ⟨rfl, hrest⟩ := List.cons_prefix_cons.mp hops
        obtain ⟨log', rfl, hw'⟩ := h.uncons hw
        exact (List.prefix_append_right_inj log).mpr (hu.begun ops₀ op' log' hrest hw')

/-- One order of the calls of a run: so many of them count when so many stores have been made, and the tree stands for
the map that they leave. -/
structure Order (ok : ℕ → Bool) (m : Mem) (ops : List Op) (log : List Event) (count : ℕ → ℕ) : Prop where
  mono : Monotone count
  upto : ∀ l l', log = l ++ l' → Upto ok m ops l (ops.take (count l.length))
  shows : ∀ l l', log = l ++ l' → ∃ log₁ g₁ g₂, Writes ok m (ops.take (count l.length)) log₁ ∧
    Quiet (storeAll m log₁) g₁ ∧ Shows (storeAll m l) g₁.tree.map g₂

theorem Head.order {s : ℕ} {count : ℕ → ℕ} (h : Head ok m op log) (hq : Quiet m g) (hq' : Quiet (storeAll m log) g')
    (hs : Switches m log g.tree.map g'.tree.map s) (ho : Order ok (storeAll m log) ops l' count) :
    Order ok m (op :: ops) (log ++ l')
      (fun t => if t < log.length then if t < s then 0 else 1 else count (t - log.length) + 1) where
  mono := by
    intro t t' ht
    have hmono : count (t - log.length) ≤ count (t' - log.length) := ho.mono (by omega)
    dsimp only
    by_cases hlt : t' < log.length
    · rw [if_pos hlt, if_pos (ht.trans_lt hlt)]
      split <;> split <;> omega
    · rw [if_neg hlt]
      split
      · split <;> omega
      · omega
  upto l c he := by
    rcases List.append_eq_append_iff.mp he with ⟨c', rfl, rfl⟩ | ⟨c', rfl, rfl⟩
    · simpa using h.upto_cons (ho.upto c' c rfl)
    · by_cases hc : c' = []
      · subst hc
        simpa using h.upto_cons (c := []) (ho.upto [] l' rfl)
      · have hlt : l.length < (l ++ c').length := by simpa using List.length_pos_iff.mpr hc
        simp only [if_pos hlt]
        refine h.upto hc ?_
        split <;> simp
  shows l c he := by
    have hdone : ∀ {c c'}, l' = c ++ c' → ∃ log₁ g₁ g₂, Writes ok m ((op :: ops).take (count c.length + 1)) log₁ ∧
        Quiet (storeAll m log₁) g₁ ∧ Shows (storeAll m (log ++ c)) g₁.tree.map g₂ := by
      intro c c' hc
      obtain ⟨log₁, g₁, g₂, hw, hq₁, hshows⟩ := ho.shows c c' hc
      refine ⟨log ++ log₁, g₁, g₂, h.cons hw, ?_, ?_⟩
      · rwa [storeAll_append]
      · rwa [storeAll_append]
    rcases List.append_eq_append_iff.mp he with ⟨c', rfl, rfl⟩ | ⟨c', rfl, rfl⟩
    · simpa using hdone (c := c') rfl
    · by_cases hc : c' = []
      · subst hc
        simpa using hdone (c := []) rfl
      · have hlt : l.length < (l ++ c').length := by simpa using List.length_pos_iff.mpr hc
        obtain ⟨g₂, hshows⟩ := hs l c' rfl
        simp only [if_pos hlt]
        by_cases hbefore : l.length < s
        · rw [if_pos hbefore] at hshows ⊢
          exact ⟨[], g, g₂, .nil m, hq, hshows⟩
        · rw [if_neg hbefore] at hshows ⊢
          exact ⟨_, g', g₂, h.cons (.nil _), by rwa [List.append_nil], hshows⟩

theorem Quiet.order (h : Quiet m g) (hw : Writes ok m ops log) : ∃ count, Order ok m ops log count := by
  induction hw generalizing g with
  | nil m =>
      refine ⟨fun _ => 0, monotone_const, fun l l' _ => ⟨List.nil_prefix, ?_, ?_⟩, fun l l' he => ?_⟩
      · exact fun ops₀ _ hops _ _ => hops
      · intro ops₀ op log₀ hops
        simpa using hops.length_le
      · obtain ⟨rfl, rfl⟩ := List.append_eq_nil_iff.mp he.symm
        exact ⟨[], g, g, .nil m, h, h.shows⟩
  | insert hr t ih =>
      obtain ⟨g', hq, s, hs⟩ := h.insert_switches hr
      obtain ⟨count, ho⟩ := ih hq
      exact ⟨_, (Head.insert hr).order h hq hs ho⟩
  | remove hr t ih =>
      obtain ⟨g', hq, s, hs⟩ := h.remove_switches hr
      obtain ⟨count, ho⟩ := ih hq
      exact ⟨_, (Head.remove hr).order h hq hs ho⟩

/-- Between two stores of a run: the tree and the calls that count. -/
structure Moment (ok : ℕ → Bool) (m : Mem) (ops : List Op) (l : List Event) (g₁ : Ghost) : Prop where
  inv : Inv (storeAll m l) g₁
  fed : Coding.Fed g₁.tree
  upto : ∃ ops₁ log₁ g₂, Upto ok m ops l ops₁ ∧ Writes ok m ops₁ log₁ ∧ Quiet (storeAll m log₁) g₂ ∧
    g₁.tree.map = g₂.tree.map

theorem Quiet.moment (h : Quiet m g) (hw : Writes ok m ops (l ++ l')) : ∃ g₁, Moment ok m ops l g₁ := by
  obtain ⟨count, ho⟩ := h.order hw
  obtain ⟨log₁, g₂, g₁, hw₁, hq, hshows⟩ := ho.shows l l' rfl
  exact ⟨g₁, hshows.inv, hshows.fed, _, log₁, g₂, ho.upto l l' rfl, hw₁, hq, hshows.map⟩

/-- The calls of a run, one after the other. -/
theorem Writes.toCalls (hw : Writes ok m ops log) : Calls ok m ops (storeAll m log) := by
  induction hw with
  | nil m => exact .nil m
  | @insert m key value e ops log log' hr _ ih =>
      have hexec : Returns (fun fuel => (critnibInsert ok fuel key value).exec m) (e, storeAll m log) := by
        obtain ⟨N, hN⟩ := hr
        exact ⟨N, fun fuel hf => Wr.exec_of_apply (hN fuel hf)⟩
      rw [storeAll_append]
      refine .cons (r := .errno e) ?_ ih
      rw [call_insert]
      exact hexec.map _
  | @remove m key v ops log log' hr _ ih =>
      have hexec : Returns (fun fuel => (critnibRemove fuel key).exec m) (v, storeAll m log) := by
        obtain ⟨N, hN⟩ := hr
        exact ⟨N, fun fuel hf => Wr.exec_of_apply (hN fuel hf)⟩
      rw [storeAll_append]
      refine .cons (r := .value v) ?_ ih
      rw [call_remove]
      exact hexec.map _

end Ptok.Critnib
