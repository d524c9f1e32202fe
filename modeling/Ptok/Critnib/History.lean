import Ptok.Critnib.Theorems

/-!
# The tree does not remember its history

Two structures that stand for the same map have the same tree, up to addresses.
-/

namespace Ptok.Critnib

open Lib

/-- The same nesting of nodes and slots, with the same contents, at whatever addresses. -/
inductive SameTree (m m' : Mem) : Ptr → Ptr → Prop
  | null : SameTree m m' .null .null
  | leaf {k k' : Addr} (hkey : (m.leaf k).key = (m'.leaf k').key) (hvalue : (m.leaf k).value = (m'.leaf k').value) :
      SameTree m m' (.leaf k) (.leaf k')
  | node {a a' : Addr} (hpath : (m.node a).path = (m'.node a').path) (hshift : (m.node a).shift = (m'.node a').shift)
      (hc : ∀ i, SameTree m m' ((m.node a).child i) ((m'.node a').child i)) : SameTree m m' (.node a) (.node a')

/-- What a call does to the map if no allocation fails. -/
def after (f : KMap) : Op → KMap
  | .insert key value => if f key = none then f.bind key value else f
  | .remove key => f.unbind key
  | _ => f

theorem Answers.after {f f' : KMap} {op : Op} {r : Ret} (h : Answers f true true op r f') : f' = after f op := by
  cases h with
  | noLeaf hl => cases hl
  | bound _ hb => exact (if_neg hb).symm
  | noNode _ _ hn => cases hn
  | bind _ hb => exact (if_pos hb).symm
  | remove => rfl
  | get => rfl
  | findLe => rfl

/-- Sequences of calls without a failed allocation do to the map what the calls do. -/
theorem Quiet.calls {m m' : Mem} {g : Ghost} {ops : List Op} (h : Quiet m g) (hc : Calls (fun _ => true) m ops m') :
    ∃ g', Quiet m' g' ∧ g'.tree.map = ops.foldl after g.tree.map := by
  induction hc generalizing g with
  | nil m => exact ⟨g, h, rfl⟩
  | @cons m m₁ m' op ops r hr _ ih =>
      obtain ⟨g₁, hq, hmap⟩ : ∃ g₁, Quiet m₁ g₁ ∧ g₁.tree.map = after g.tree.map op := by
        cases op with
        | insert key value =>
            obtain ⟨r', m'', g', hr', hq', -, hans, hall⟩ := insert_returns h (fun _ => true) key value
            cases hr.unique hr'
            obtain ⟨hl, hn⟩ := hall fun _ => rfl
            rw [hl, hn] at hans
            exact ⟨g', hq', hans.after⟩
        | remove key =>
            obtain ⟨r', m'', g', hr', hq', -, hans⟩ := remove_returns h (fun _ => true) key true true
            cases hr.unique hr'
            exact ⟨g', hq', hans.after⟩
        | get key =>
            obtain ⟨rfl, -⟩ := get_mem hr
            exact ⟨g, h, rfl⟩
        | findLe key =>
            obtain ⟨rfl, -⟩ := findLe_mem hr
            exact ⟨g, h, rfl⟩
      obtain ⟨g', hq', hmap'⟩ := ih hq
      exact ⟨g', hq', by rw [hmap', hmap, List.foldl_cons]⟩

end Ptok.Critnib
