import Ptok.Critnib.Concurrent.Order
import Ptok.CritnibTag.Lemmas

/-!
# critnib_tag among its own writers

A remove of critnib_tag that returns stores what one of critnib stores, in the same order. So its readers of one key see
what those of critnib see. Its predecessor search loads a left sibling twice as well, which is a second way to a `NULL`.
-/

namespace Ptok.CritnibTag

open Lib Critnib

variable {m : Mem} {g : Ghost} {key : Word} {v n : ℕ} {ok : ℕ → Bool} {ops : List Op} {log log' rest : List Event}

/-- The inserts and removes of a list return one after the other, and this is the log of their stores. -/
inductive Writes (ok : ℕ → Bool) : Mem → List Op → List Event → Prop
  | nil (m : Mem) : Writes ok m [] []
  | insert {m : Mem} {key : Word} {value : ℕ} {e : Errno} {ops : List Op} {log log' : List Event}
      (hr : Returns (fun fuel => critnibTagInsert ok fuel key value m) (e, log))
      (t : Writes ok (storeAll m log) ops log') : Writes ok m (.insert key value :: ops) (log ++ log')
  | remove {m : Mem} {key : Word} {v : ℕ} {ops : List Op} {log log' : List Event}
      (hr : Returns (fun fuel => critnibTagRemove fuel key m) (v, log))
      (t : Writes ok (storeAll m log) ops log') : Writes ok m (.remove key :: ops) (log ++ log')

/-- A remove that returns did not walk into an empty slot. -/
theorem removeDive_ne_none {fuel : ℕ} {r : ℕ × List Event} (hr : critnibTagRemove (fuel + 1) key m = .ok r)
    {del : Fin 16} {log : List Event} {a : Addr} (hrec : recycle m = .ok (del, log)) (hroot : m.root = .node a) :
    Critnib.removeDive (storeAll m log) key fuel .root .root (.node a) (.node a) ≠ .ok none := by
  intro hnone
  have hstuck := removeDive_of_none (Nat.lt_succ_self fuel) hnone
  obtain ⟨v, l⟩ := r
  obtain ⟨n, l₁, l₂, hn, h₁, -⟩ := Wr.bind_ok.mp hr
  obtain ⟨rfl, rfl⟩ : n = .node a ∧ l₁ = [] := by
    cases hn
    exact ⟨hroot, rfl⟩
  rw [storeAll_nil, if_neg (by simp)] at h₁
  obtain ⟨del', l₃, l₄, hrec', h₂, -⟩ := Wr.bind_ok.mp h₁
  cases hrec.symm.trans hrec'
  obtain ⟨r, l₅, l₆, hd, -, -⟩ := Wr.bind_ok.mp h₂
  rw [Wr.query_apply, hstuck] at hd
  cases hd

/-- The same result and the same stores. -/
theorem remove_of_tag (h : Quiet m g) (hr : Returns (fun fuel => critnibTagRemove fuel key m) (v, log)) :
    Returns (fun fuel => critnibRemove fuel key m) (v, log) := by
  obtain ⟨v', log', g', hdo, -⟩ := critnibRemove_spec h key
  have hret : Returns (fun fuel => critnibRemove fuel key m) (v', log') :=
    ⟨g.tree.height + 1, fun fuel hf => (hdo fuel hf).run⟩
  obtain ⟨N, hN⟩ := hr
  have hrun := (hdo (N + g.tree.height + 1) (by omega)).run
  have htag := critnibTagRemove_of_ok hrun fun del log a => removeDive_ne_none (hN _ (by omega))
  cases (hN _ (by omega)).symm.trans htag
  exact hret

theorem Writes.toWrites (hw : Writes ok m ops log) (h : Quiet m g) : Critnib.Writes ok m ops log := by
  induction hw generalizing g with
  | nil m => exact .nil m
  | insert hr _ ih =>
      obtain ⟨g', hq, -⟩ := h.insert_switches hr
      exact .insert hr (ih hq)
  | remove hr _ ih =>
      have hr := remove_of_tag h hr
      obtain ⟨g', hq, -⟩ := h.remove_switches hr
      exact .remove hr (ih hq)

theorem Writes.take (hw : Writes ok m ops log) (n : ℕ) : ∃ log', Writes ok m (ops.take n) log' := by
  induction hw generalizing n with
  | nil m =>
      rw [List.take_nil]
      exact ⟨[], .nil m⟩
  | insert hr _ ih =>
      cases n with
      | zero => exact ⟨[], .nil _⟩
      | succ n =>
          obtain ⟨log', h⟩ := ih n
          exact ⟨_, .insert hr h⟩
  | remove hr _ ih =>
      cases n with
      | zero => exact ⟨[], .nil _⟩
      | succ n =>
          obtain ⟨log', h⟩ := ih n
          exact ⟨_, .remove hr h⟩

theorem writes_unique (h : Critnib.Writes ok m ops log) (h' : Critnib.Writes ok m ops log') : log = log' := by
  induction h generalizing log' with
  | nil m =>
      cases h'
      rfl
  | insert hr _ ih =>
      cases h' with
      | insert hr' t =>
          cases hr.unique hr'
          rw [ih t]
  | remove hr _ ih =>
      cases h' with
      | remove hr' t =>
          cases hr.unique hr'
          rw [ih t]

/-- What `critnib_tag_get` returns when it is called alone after these calls on a structure. -/
def GetsAfter (ok : ℕ → Bool) (m : Mem) (ops : List Op) (key : Word) (v : ℕ) : Prop :=
  ∃ log, Writes ok m ops log ∧ Returns (fun fuel => (critnibTagGet key fuel).eval (storeAll m log).load) v

theorem getsAfter_of_valueAfter {node : Addr → Node} {leaf : Addr → Leaf} (hw : Writes ok (critnibNew node leaf) ops log)
    (hops : ops.countP Op.IsRemove < 2 ^ 64 - 16) (hv : ValueAfter ok (critnibNew node leaf) ops key v) :
    GetsAfter ok (critnibNew node leaf) ops key v := by
  have hnew := quiet_new node leaf
  obtain ⟨log', f, hw', hf, rfl⟩ := hv
  obtain rfl := writes_unique (hw.toWrites hnew) hw'
  obtain ⟨g, hq, rfl⟩ := hf.quiet
  refine ⟨log, hw, (critnibGet_eval hq.toInv key).1 ?_⟩
  obtain ⟨g', hp⟩ := hnew.path hw'
  have hdraws := hw'.draws_le
  have hzero : (critnibNew node leaf).removeCount.toNat = 0 := rfl
  rw [hp.removeCount (by omega)]
  omega

/-- Readers among the stores of a run of inserts and removes, of which so far some prefix was made. There is one order
of the calls: each insert and remove counts from a moment of its own, and each get that has returned has a moment of its
own, where it returned what a get alone returns after the calls before it. -/
theorem critnibTag_linearizable {node : Addr → Node} {leaf : Addr → Leaf}
    (hw : Writes ok (critnibNew node leaf) ops (log ++ rest)) (hops : ops.countP Op.IsRemove < 2 ^ 64 - 16)
    {ι : Type} [DecidableEq ι] {ps : ι → R ℕ} {sched : List (Sys.Act ι Event Loc Loc.Val ℕ)}
    (hlog : Sys.stores sched = log) :
    ∃ count : ℕ → ℕ, Monotone count ∧
      (∀ l l' ops₀ log₀, log = l ++ l' → ops₀ <+: ops → Writes ok (critnibNew node leaf) ops₀ log₀ → log₀ <+: l →
        ops₀ <+: ops.take (count l.length)) ∧
      (∀ l l' ops₀ op log₀, log = l ++ l' → ops₀ ++ [op] <+: ops.take (count l.length) →
        Writes ok (critnibNew node leaf) ops₀ log₀ → log₀ <+: l) ∧
      ∀ before during after i key fuel v ps', sched = before ++ .call i (critnibTagGet key fuel) :: (during ++ after) →
        Sys.Exec Mem.load (critnibNew node leaf) ps (before ++ .call i (critnibTagGet key fuel) :: during) ps' →
        (∀ p, .call i p ∉ during) → ps' i = .ret (.ok v) →
        ∃ s t, during = s ++ t ∧
          GetsAfter ok (critnibNew node leaf) (ops.take (count (Sys.stores (before ++ s)).length)) key v := by
  have hnew := quiet_new node leaf
  have hw' := hw.toWrites hnew
  obtain ⟨count, ho⟩ := hnew.order hw'
  have hupto : ∀ {l l'}, log = l ++ l' → Upto ok (critnibNew node leaf) ops l (ops.take (count l.length)) :=
    fun hl => ho.upto _ _ (by rw [hl, List.append_assoc])
  refine ⟨count, ho.mono, fun l l' ops₀ log₀ hl hpre hw₀ hlog₀ => ?_, fun l l' ops₀ op log₀ hl hpre hw₀ => ?_, ?_⟩
  · exact (hupto hl).done ops₀ log₀ hpre (hw₀.toWrites hnew) hlog₀
  · exact (hupto hl).begun ops₀ op log₀ hpre (hw₀.toWrites hnew)
  · rintro before during after i key fuel v ps' rfl hx hcall hret
    obtain ⟨s, t, hst, hv⟩ := ho.get_returned hw' hops hlog hx hcall hret
    refine ⟨s, t, hst, ?_⟩
    obtain ⟨log₁, hw₁⟩ := hw.take (count (Sys.stores (before ++ s)).length)
    refine getsAfter_of_valueAfter hw₁ (lt_of_le_of_lt ?_ hops) hv
    exact (List.take_sublist _ _).countP_le

theorem tag_writes : Writes (fun _ => true) blank [.insert 5 7]
    ([.mallocLeaf true, .key 1 5, .value 1 7, .slot .root (.leaf 1)] ++ []) :=
  .insert (e := .ok) ⟨0, fun _ _ => rfl⟩ (.nil _)

theorem critnibTag_linearizable_insert : ∃ count : ℕ → ℕ, Monotone count ∧
    (∀ l l' ops₀ log₀, [.mallocLeaf true, .key 1 5, .value 1 7, .slot .root (.leaf 1)] = l ++ l' →
      ops₀ <+: [Op.insert 5 7] → Writes (fun _ => true) blank ops₀ log₀ → log₀ <+: l →
      ops₀ <+: [Op.insert 5 7].take (count l.length)) ∧
    (∀ l l' ops₀ op log₀, [.mallocLeaf true, .key 1 5, .value 1 7, .slot .root (.leaf 1)] = l ++ l' →
      ops₀ ++ [op] <+: [Op.insert 5 7].take (count l.length) → Writes (fun _ => true) blank ops₀ log₀ → log₀ <+: l) ∧
    ∀ before during after i key fuel v ps',
      insertBefore ++ .call () (critnibTagGet 5 2) :: insertDuring =
        before ++ .call i (critnibTagGet key fuel) :: (during ++ after) →
      Sys.Exec Mem.load blank (fun _ => .ret (.ok 0)) (before ++ .call i (critnibTagGet key fuel) :: during) ps' →
      (∀ p, .call i p ∉ during) → ps' i = .ret (.ok v) →
      ∃ s t, during = s ++ t ∧ GetsAfter (fun _ => true) blank
        ([Op.insert 5 7].take (count (Sys.stores (before ++ s)).length)) key v :=
  critnibTag_linearizable tag_writes (by decide) rfl

/-! ## critnib_tag_find_le -/

/-- The left sibling that was seen is there until its slot is cleared. -/
theorem findLeft_noNull (fuel : ℕ) (a : Addr) (is : List (Fin 16)) : NoNull (findLeft fuel (.node a) is) := by
  induction is with
  | nil => exact .pure _
  | cons i is ih =>
      intro m s r hs hx
      rw [findLeft] at hx
      simp only [loadChild_node] at hx
      obtain ⟨l, s₁, rfl, hx₁⟩ := hx.of_get_bind
      have hs₁ : Unclear ((l.map .store ++ [.load (.child a i)]) ++ s₁) := by simpa using hs
      split at hx₁
      · exact ih _ _ _ hs₁.right hx₁
      · rename_i hne
        obtain ⟨l', s₂, rfl, hx₂⟩ := Prog.Exec.of_get_bind hx₁
        have hclear := hs _ _ a i l' rfl
        have hchild : (storeAll (storeAll m l) l').load (.child a i) ≠ .null := child_ne_null hne hclear
        have hs₂ : Unclear ((l.map .store ++ [.load (.child a i)] ++ (l'.map .store ++ [.load (.child a i)])) ++ s₂) := by
          simpa using hs
        generalize (storeAll (storeAll m l) l').load (.child a i) = q at hx₂ hchild
        cases q with
        | null => exact absurd rfl hchild
        | leaf k => exact NoNull.load (.value k) _ _ _ hs₂.right hx₂
        | node b => exact findSuccessor_noNull fuel b _ _ _ hs₂.right hx₂

theorem findLe_noNull (key : Word) (fuel : ℕ) (q : Ptr) : NoNull (findLe key fuel q) := by
  induction fuel generalizing q with
  | zero => exact .stuck (by simp)
  | succ fuel ih =>
      cases q with
      | null => exact .pure _
      | leaf k =>
          refine .load_bind fun k_ => ?_
          split
          · exact .load _
          · exact .pure _
      | node a =>
          refine .load_bind fun path => .load_bind fun shift => ?_
          split
          · refine .load_bind fun path => ?_
            split
            · exact findSuccessor_noNull fuel a
            · exact .pure _
          · refine .load_bind fun shift => .load_bind fun p => .bind (ih p) fun value => ?_
            split
            · exact .pure _
            · exact findLeft_noNull fuel a _

end Ptok.CritnibTag
