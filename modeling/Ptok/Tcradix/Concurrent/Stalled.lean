import Ptok.Tcradix.Concurrent.Get
import Ptok.Tcradix.Lemmas.Rules

/-!
# A writer of tcradix that stops

`write_status` is odd from the first store of a call to its last one. So a lookup alone returns between two calls, and in
the middle of one it goes round for ever.
-/

namespace Ptok.Tcradix

open Lib

variable {ok : ℕ → Bool} {m : Mem} {key : Word} {node : Addr → Node} {ws : List Write} {l rest log : List Event} {r : Ret}

/-! ## The stores of a call -/

def Event.IsPoke : Event → Bool
  | .writeStatus _ => true
  | _ => false

/-- The code does not store to `write_status`. -/
abbrev NoPoke {α : Type} (x : W α) : Prop := Wr.Emits (fun e => e.IsPoke = false) x

theorem allocNode_noPoke (ok : ℕ → Bool) : NoPoke (allocNode ok) := by
  refine .bind (.read _) fun n => ?_
  cases n with
  | null => exact .bind (.read _) fun _ => .bind (.read _) fun _ => .bind (.emit rfl) fun _ => .pure _
  | val v => exact .stuck _
  | node a => exact .bind (.read _) fun _ => .bind (.emit rfl) fun _ => .bind (.emit rfl) fun _ => .pure _

theorem noPoke_stores : Stores fun _ => Wr.Emits fun e => e.IsPoke = false where
  toClosed := Wr.Emits.closed _
  nodes _ _ _ := .emit rfl
  onlyKey _ _ := .emit rfl
  onlyVal _ _ := .emit rfl
  nchildren _ _ := .emit rfl

theorem noPoke_fills (ok : ℕ → Bool) : Fills ok fun _ => Wr.Emits fun e => e.IsPoke = false where
  toStores := noPoke_stores
  alloc := allocNode_noPoke ok
  free _ := .emit rfl

theorem noPoke_drops : Drops fun _ => Wr.Emits fun e => e.IsPoke = false where
  toStores := noPoke_stores
  pool _ := .emit rfl

theorem writeStatus_of_noPoke {l : List Event} (hl : ∀ e ∈ l, e.IsPoke = false) (m : Mem) :
    (storeAll m l).writeStatus = m.writeStatus := by
  induction l generalizing m with
  | nil => rfl
  | cons e l ih =>
      rw [storeAll_cons, ih fun e' he => hl e' (List.mem_cons_of_mem _ he)]
      cases e with
      | writeStatus w => cases hl _ List.mem_cons_self
      | zalloc b => cases b <;> rfl
      | _ => rfl

/-- The stores of a call: none, or `write_status` is made odd, then everything else is stored, and it is made even. -/
inductive CallLog (m : Mem) : List Event → Prop
  | nil : CallLog m []
  | pokes {inner : List Event} (h : ∀ e ∈ inner, e.IsPoke = false) :
      CallLog m (.writeStatus (m.writeStatus + 1) :: (inner ++ [.writeStatus (m.writeStatus + 1 + 1)]))

theorem CallLog.of_pokes {u u' : Unit} {l₁ inner l₂ : List Event} (h₁ : writePoke m = .ok (u, l₁))
    (hinner : ∀ e ∈ inner, e.IsPoke = false) (h₂ : writePoke (storeAll (storeAll m l₁) inner) = .ok (u', l₂)) :
    CallLog m (l₁ ++ (inner ++ l₂)) := by
  cases h₁
  cases h₂
  have hst := writeStatus_of_noPoke hinner (storeAll m [.writeStatus (m.writeStatus + 1)])
  show CallLog m (.writeStatus (m.writeStatus + 1) ::
    (inner ++ [.writeStatus ((storeAll (storeAll m [.writeStatus (m.writeStatus + 1)]) inner).writeStatus + 1)]))
  rw [hst]
  exact .pokes hinner

theorem write_log {w : Write} (h : write ok w m = .ok (r, log)) : CallLog m log := by
  cases w with
  | insert key value =>
      obtain ⟨e, l₁, l₂, h₁, h₂, rfl⟩ := Wr.bind_ok.mp h
      cases h₂
      rw [List.append_nil]
      unfold tcradixInsert at h₁
      split at h₁
      · cases h₁
        exact .nil
      · obtain ⟨_, l₁, l₂, hpoke, h₂, rfl⟩ := Wr.bind_ok.mp h₁
        obtain ⟨_, l₂, l₃, hroot, h₃, rfl⟩ := Wr.bind_ok.mp h₂
        obtain ⟨_, l₃, l₄, hins, h₄, rfl⟩ := Wr.bind_ok.mp h₃
        obtain ⟨_, l₄, l₅, hpoke', h₅, rfl⟩ := Wr.bind_ok.mp h₄
        cases h₅
        rw [List.append_nil, ← List.append_assoc l₂]
        refine .of_pokes hpoke (fun e he => ?_) (by rwa [storeAll_append])
        rcases List.mem_append.mp he with he | he
        · exact noPoke_stores.setRoot _ _ _ _ _ hroot e he
        · exact (noPoke_fills ok).insert _ _ _ _ _ _ _ hins e he
  | remove key =>
      obtain ⟨e, l₁, l₂, h₁, h₂, rfl⟩ := Wr.bind_ok.mp h
      cases h₂
      obtain ⟨_, l₁, l₂, hpoke, h₂, rfl⟩ := Wr.bind_ok.mp h₁
      obtain ⟨_, l₂, l₃, hrem, h₃, rfl⟩ := Wr.bind_ok.mp h₂
      obtain ⟨_, l₃, l₄, hpoke', h₄, rfl⟩ := Wr.bind_ok.mp h₃
      cases h₄
      rw [List.append_nil, List.append_nil]
      exact .of_pokes hpoke (noPoke_drops.nremove _ _ _ _ _ _ _ hrem) hpoke'

theorem CallLog.idle (h : CallLog m log) (hm : ¬ busy m.writeStatus) : ¬ busy (storeAll m log).writeStatus := by
  cases h with
  | nil => exact hm
  | pokes _ =>
      rw [storeAll_cons, storeAll_append]
      show ¬ busy (m.writeStatus + 1 + 1)
      rwa [busy_succ, busy_succ, not_not]

/-- In the middle of a call. -/
theorem CallLog.busy {l' : List Event} (h : CallLog m (l ++ l')) (hm : ¬ busy m.writeStatus) (hl : l ≠ [])
    (hl' : l' ≠ []) : busy (storeAll m l).writeStatus := by
  generalize hlog : l ++ l' = log at h
  cases h with
  | nil => exact absurd (List.append_eq_nil_iff.mp hlog).1 hl
  | @pokes inner hinner =>
      obtain ⟨e, l, rfl⟩ := List.exists_cons_of_ne_nil hl
      obtain ⟨rfl, -⟩ := List.cons_eq_cons.mp hlog
      -- what has been stored ends in front of the last store
      have hin : ∀ e ∈ l, e.IsPoke = false := by
        obtain ⟨l'', e', rfl⟩ := (List.eq_nil_or_concat' l').resolve_left hl'
        have hlog : (l ++ l'') ++ [e'] = inner ++ [.writeStatus (m.writeStatus + 1 + 1)] := by
          rw [List.append_assoc]
          exact (List.cons_eq_cons.mp hlog).2
        obtain ⟨rfl, -⟩ := List.append_inj' hlog rfl
        exact fun e he => hinner e (List.mem_append_left _ he)
      rw [storeAll_cons, writeStatus_of_noPoke hin]
      exact (busy_succ _).mpr hm

theorem Writes.idle (hw : Writes ok m ws l) (hm : ¬ busy m.writeStatus) : ¬ busy (storeAll m l).writeStatus := by
  induction hw with
  | nil m => exact hm
  | cons _ hr _ ih =>
      obtain ⟨N, hN⟩ := hr
      rw [storeAll_append]
      exact ih ((write_log (hN N le_rfl)).idle hm)

/-- Between two stores either all calls that have begun are done, or a call is in its critical section. -/
theorem Writes.cut (hw : Writes ok m ws (l ++ rest)) (hm : ¬ busy m.writeStatus) :
    (∃ ws₁, ws₁ <+: ws ∧ Writes ok m ws₁ l) ∨ busy (storeAll m l).writeStatus := by
  generalize hlog : l ++ rest = log at hw
  induction hw generalizing l with
  | nil m =>
      obtain ⟨rfl, -⟩ := List.append_eq_nil_iff.mp hlog
      exact Or.inl ⟨[], List.nil_prefix, .nil m⟩
  | @cons m w ws r log log' hpre hr _ ih =>
      by_cases hl : l = []
      · subst hl
        exact Or.inl ⟨[], List.nil_prefix, .nil m⟩
      have hcall : CallLog m log := by
        obtain ⟨N, hN⟩ := hr
        exact write_log (hN N le_rfl)
      rcases List.append_eq_append_iff.mp hlog with ⟨c, rfl, rfl⟩ | ⟨c, rfl, rfl⟩
      · by_cases hc : c = []
        · subst hc
          rw [List.append_nil] at hr
          exact Or.inl ⟨[w], List.prefix_append [w] ws, by simpa using Runs.cons hpre hr (.nil _)⟩
        · exact Or.inr (hcall.busy hm hl hc)
      · rcases ih (hcall.idle hm) rfl with ⟨ws₁, hpref, hw₁⟩ | hb
        · exact Or.inl ⟨w :: ws₁, List.cons_prefix_cons.mpr ⟨rfl, hpref⟩, .cons hpre hr hw₁⟩
        · exact Or.inr (by rwa [storeAll_append])

/-! ## Lookups -/

end Ptok.Tcradix
