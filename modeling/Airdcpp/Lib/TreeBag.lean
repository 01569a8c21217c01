import Airdcpp.Lib.RoseTree

/-!
# `Lib/TreeBag` — the values of a tree, and what a change at one place does to them

An index over a tree is about all its values, and does not care where in the tree they are. `values`
lists them. What is found at a place is a part of the tree, and the rest does not change with it:
`exists_rest` says this for any change at the place, and `values_eraseFirst` for a child that is
taken out.
-/

namespace Airdcpp
namespace Lib

/-- The element that is found, and the others. -/
theorem perm_cons_eraseP {α : Type*} {p : α → Bool} {l : List α} {x : α}
    (h : l.find? p = some x) : l.Perm (x :: l.eraseP p) := by
  induction l with
  | nil => cases h
  | cons y l ih =>
    rw [List.eraseP_cons]
    cases hy : p y with
    | true =>
      rw [List.find?_cons_of_pos hy] at h
      obtain rfl := Option.some.inj h
      exact List.Perm.refl _
    | false =>
      rw [List.find?_cons_of_neg (by rw [hy]; exact Bool.false_ne_true)] at h
      exact ((ih h).cons y).trans (.swap x y _)

namespace RoseTree

variable {α κ : Type*}

mutual

/-- The value of the root, and those below it. -/
def values : RoseTree α → List α
  | node v cs => v :: allValues cs

def allValues : List (RoseTree α) → List α
  | [] => []
  | c :: cs => values c ++ allValues cs

end

@[simp] theorem values_node (v : α) (cs : List (RoseTree α)) :
    values (node v cs) = v :: allValues cs := by rw [values]

@[simp] theorem allValues_nil : allValues ([] : List (RoseTree α)) = [] := by rw [allValues]

@[simp] theorem allValues_cons (c : RoseTree α) (cs : List (RoseTree α)) :
    allValues (c :: cs) = values c ++ allValues cs := by rw [allValues]

theorem values_eq (t : RoseTree α) : values t = t.value :: allValues t.children := by
  cases t with
  | node v cs => rw [values_node, value_node, children_node]

theorem value_mapValue (f : α → α) (t : RoseTree α) : (t.mapValue f).value = f t.value := rfl

theorem values_mapValue (f : α → α) (t : RoseTree α) :
    values (t.mapValue f) = f t.value :: allValues t.children := by rw [mapValue, values_node]

theorem allValues_eq (cs : List (RoseTree α)) : allValues cs = cs.flatMap values := by
  induction cs with
  | nil => rw [allValues_nil, List.flatMap_nil]
  | cons c cs ih => rw [allValues_cons, List.flatMap_cons, ih]

theorem allValues_perm {cs ds : List (RoseTree α)} (h : cs.Perm ds) :
    (allValues cs).Perm (allValues ds) := by
  rw [allValues_eq, allValues_eq]
  exact h.flatMap_right _

variable {key : α → κ} [DecidableEq κ] {k : κ} {p : List κ} {t s c : RoseTree α}
  {cs : List (RoseTree α)}

/-- Take out the first element that has a key. -/
def eraseFirst (key : α → κ) (k : κ) (cs : List (RoseTree α)) : List (RoseTree α) :=
  cs.eraseP fun c => c.keyOf key = k

theorem values_eraseFirst (h : cs.find? (fun c => c.keyOf key = k) = some c) :
    (allValues cs).Perm (values c ++ allValues (eraseFirst key k cs)) := by
  rw [← allValues_cons]
  exact allValues_perm (perm_cons_eraseP h)

theorem exists_rest_first (h : cs.find? (fun c => c.keyOf key = k) = some c) :
    ∃ rest, (allValues cs).Perm (values c ++ rest) ∧
      ∀ f, (allValues (modifyFirst key k f cs)).Perm (values (f c) ++ rest) := by
  induction cs with
  | nil => cases h
  | cons d cs ih =>
    by_cases hd : d.keyOf key = k
    · rw [List.find?_cons, decide_eq_true hd] at h
      obtain rfl := Option.some.inj h
      refine ⟨allValues cs, by rw [allValues_cons], fun f => ?_⟩
      rw [modifyFirst, if_pos hd, allValues_cons]
    · rw [List.find?_cons, decide_eq_false hd] at h
      obtain ⟨rest, hrest, hmodify⟩ := ih h
      have hswap : ∀ l : List α, (values d ++ (l ++ rest)).Perm (l ++ (values d ++ rest)) := by
        intro l
        rw [← List.append_assoc, ← List.append_assoc]
        exact List.perm_append_comm.append_right _
      refine ⟨values d ++ rest, ?_, fun f => ?_⟩
      · rw [allValues_cons]
        exact (hrest.append_left _).trans (hswap _)
      · rw [modifyFirst, if_neg hd, allValues_cons]
        exact ((hmodify f).append_left _).trans (hswap _)

/-- **The rest of the tree** does not depend on what is at the place. -/
theorem exists_rest (h : at? key p t = some s) :
    ∃ rest, (values t).Perm (values s ++ rest) ∧
      ∀ f, (values (modifyAt key p f t)).Perm (values (f s) ++ rest) := by
  induction p generalizing t with
  | nil =>
    obtain rfl := Option.some.inj h
    refine ⟨[], by rw [List.append_nil], fun f => ?_⟩
    rw [modifyAt, List.append_nil]
  | cons k p ih =>
    rw [at?] at h
    obtain ⟨c, hc, hs⟩ := Option.bind_eq_some_iff.mp h
    obtain ⟨rest, hrest, hmodify⟩ := ih hs
    obtain ⟨others, hothers, hfirst⟩ := exists_rest_first hc
    have hmiddle : ∀ {l m : List α}, l.Perm (m ++ rest) →
        (t.value :: (l ++ others)).Perm (m ++ t.value :: (rest ++ others)) := by
      intro l m hl
      refine List.Perm.trans ?_ List.perm_middle.symm
      rw [← List.append_assoc]
      exact (hl.append_right _).cons _
    refine ⟨t.value :: (rest ++ others), ?_, fun f => ?_⟩
    · rw [values_eq t]
      exact (hothers.cons _).trans (hmiddle hrest)
    · rw [modifyAt, values_node]
      exact ((hfirst _).cons _).trans (hmiddle (hmodify f))

end RoseTree
end Lib
end Airdcpp
