import Mathlib

/-!
# `Lib/RoseTree` — trees of values, and places in them

A tree whose nodes have any number of children. The values have keys, so a node is known by the keys
on the way to it from the root. A pointer to a node is such a path: `at?` is what it points to, and
`modifyAt` changes the tree there.

As long as a change leaves the key alone, changes at one place are one change after the other
(`modifyAt_modifyAt`), the node is found there afterwards (`at?_modifyAt`), and a change of a child
that has just been added is a change of what is added (`modifyAt_append_extend`).
-/

namespace Airdcpp
namespace Lib

inductive RoseTree (α : Type*)
  | node (value : α) (children : List (RoseTree α))

namespace RoseTree

variable {α κ : Type*}

def value : RoseTree α → α
  | node v _ => v

def children : RoseTree α → List (RoseTree α)
  | node _ cs => cs

@[simp] theorem value_node (v : α) (cs : List (RoseTree α)) : (node v cs).value = v := rfl
@[simp] theorem children_node (v : α) (cs : List (RoseTree α)) : (node v cs).children = cs := rfl

/-- Change the value of the root. -/
def mapValue (f : α → α) (t : RoseTree α) : RoseTree α := node (f t.value) t.children

/-- Change the value of the root, and add children at the end. -/
def extend (f : α → α) (cs : List (RoseTree α)) (t : RoseTree α) : RoseTree α :=
  node (f t.value) (t.children ++ cs)

@[simp] theorem value_extend (f : α → α) (cs : List (RoseTree α)) (t : RoseTree α) :
    (t.extend f cs).value = f t.value := rfl

@[simp] theorem children_extend (f : α → α) (cs : List (RoseTree α)) (t : RoseTree α) :
    (t.extend f cs).children = t.children ++ cs := rfl

@[simp] theorem children_mapValue (f : α → α) (t : RoseTree α) :
    (t.mapValue f).children = t.children := rfl

theorem extend_extend (f g : α → α) (cs ds : List (RoseTree α)) (t : RoseTree α) :
    (t.extend f cs).extend g ds = t.extend (g ∘ f) (cs ++ ds) := by
  simp [extend]

@[simp] theorem extend_id_nil : extend (id : α → α) [] = id := by
  funext t
  cases t
  simp [extend]

/-! ## Places -/

variable (key : α → κ)

/-- The key of a tree is that of its root. -/
abbrev keyOf (t : RoseTree α) : κ := key t.value

/-- A change that leaves the key alone. -/
def KeepsKey (f : RoseTree α → RoseTree α) : Prop := ∀ t, (f t).keyOf key = t.keyOf key

variable {key} in
theorem keepsKey_extend {h : α → α} (hh : ∀ a, key (h a) = key a) (cs : List (RoseTree α)) :
    KeepsKey key (extend h cs) := fun t => hh t.value

variable [DecidableEq κ]

/-- What a path leads to. -/
def at? : List κ → RoseTree α → Option (RoseTree α)
  | [], t => some t
  | k :: p, t => (t.children.find? fun c => c.keyOf key = k).bind (at? p)

/-- Change the first element that has a key. -/
def modifyFirst (k : κ) (f : RoseTree α → RoseTree α) : List (RoseTree α) → List (RoseTree α)
  | [] => []
  | c :: cs => if c.keyOf key = k then f c :: cs else c :: modifyFirst k f cs

/-- Change what a path leads to. -/
def modifyAt : List κ → (RoseTree α → RoseTree α) → RoseTree α → RoseTree α
  | [], f, t => f t
  | k :: p, f, t => node t.value (modifyFirst key k (modifyAt p f) t.children)

variable {key} {k : κ} {p q : List κ} {f g : RoseTree α → RoseTree α} {t v c : RoseTree α}
  {cs : List (RoseTree α)}

theorem KeepsKey.modifyAt (hf : KeepsKey key f) (p : List κ) : KeepsKey key (modifyAt key p f) := by
  cases p with
  | nil => exact hf
  | cons k p => exact fun _ => rfl

theorem find?_modifyFirst (hf : KeepsKey key f) (k : κ) (cs : List (RoseTree α)) :
    (modifyFirst key k f cs).find? (fun c => c.keyOf key = k) =
      (cs.find? fun c => c.keyOf key = k).map f := by
  induction cs with
  | nil => rfl
  | cons c cs ih =>
    rw [modifyFirst]
    by_cases hk : c.keyOf key = k
    · have hk' : (f c).keyOf key = k := (hf c).trans hk
      simp [hk, hk']
    · simp [hk, ih]

theorem modifyFirst_modifyFirst (hf : KeepsKey key f) (k : κ) (cs : List (RoseTree α)) :
    modifyFirst key k g (modifyFirst key k f cs) = modifyFirst key k (g ∘ f) cs := by
  induction cs with
  | nil => rfl
  | cons c cs ih =>
    simp only [modifyFirst]
    by_cases hk : c.keyOf key = k
    · have hk' : (f c).keyOf key = k := (hf c).trans hk
      simp [hk, modifyFirst, hk']
    · simp [hk, modifyFirst, ih]

theorem modifyFirst_id (k : κ) (cs : List (RoseTree α)) : modifyFirst key k id cs = cs := by
  induction cs with
  | nil => rfl
  | cons c cs ih => simp [modifyFirst, ih]

theorem modifyFirst_congr (h : ∀ c ∈ cs.find? (fun c => c.keyOf key = k), f c = g c) :
    modifyFirst key k f cs = modifyFirst key k g cs := by
  induction cs with
  | nil => rfl
  | cons c cs ih =>
    simp only [modifyFirst]
    by_cases hk : c.keyOf key = k
    · simp [hk, h c (by simp [hk])]
    · rw [if_neg hk, if_neg hk, ih]
      simpa [hk] using h

/-- Changes of the place in question only. -/
theorem modifyAt_congr (h : ∀ v ∈ at? key p t, f v = g v) :
    modifyAt key p f t = modifyAt key p g t := by
  induction p generalizing t with
  | nil => exact h t rfl
  | cons k p ih =>
    simp only [modifyAt]
    congr 1
    refine modifyFirst_congr fun c hc => ih fun v hv => h v ?_
    rw [at?, Option.mem_def.mp hc]
    exact hv

@[simp] theorem modifyAt_id (p : List κ) (t : RoseTree α) : modifyAt key p id t = t := by
  induction p generalizing t with
  | nil => rfl
  | cons k p ih =>
    have hsame : modifyAt key p (id : RoseTree α → RoseTree α) = id := funext ih
    cases t with
    | node v cs => rw [modifyAt, hsame, value_node, children_node, modifyFirst_id]

theorem modifyAt_modifyAt (hf : KeepsKey key f) (p : List κ) (t : RoseTree α) :
    modifyAt key p g (modifyAt key p f t) = modifyAt key p (g ∘ f) t := by
  induction p generalizing t with
  | nil => rfl
  | cons k p ih =>
    simp only [modifyAt, value_node, children_node]
    rw [modifyFirst_modifyFirst (hf.modifyAt p)]
    congr 2
    funext c
    exact ih c

theorem at?_modifyAt (hf : KeepsKey key f) (p : List κ) (t : RoseTree α) :
    at? key p (modifyAt key p f t) = (at? key p t).map f := by
  induction p generalizing t with
  | nil => rfl
  | cons k p ih =>
    simp only [at?, modifyAt, children_node]
    rw [find?_modifyFirst (hf.modifyAt p)]
    cases t.children.find? fun c => c.keyOf key = k with
    | none => rfl
    | some c => exact ih c

theorem at?_append (p q : List κ) (t : RoseTree α) :
    at? key (p ++ q) t = (at? key p t).bind (at? key q) := by
  induction p generalizing t with
  | nil => rfl
  | cons k p ih =>
    simp only [List.cons_append, at?, Option.bind_assoc]
    congr 1
    funext c
    exact ih c

theorem modifyAt_append (p q : List κ) (t : RoseTree α) :
    modifyAt key (p ++ q) f t = modifyAt key p (modifyAt key q f) t := by
  induction p generalizing t with
  | nil => rfl
  | cons k p ih =>
    simp only [List.cons_append, modifyAt]
    congr 2
    funext c
    exact ih c

/-! ## Children that are added -/

theorem modifyFirst_concat (hcs : ∀ d ∈ cs, d.keyOf key ≠ c.keyOf key) :
    modifyFirst key (c.keyOf key) f (cs ++ [c]) = cs ++ [f c] := by
  induction cs with
  | nil => simp [modifyFirst]
  | cons d cs ih =>
    have hd := hcs d List.mem_cons_self
    rw [List.cons_append, modifyFirst, if_neg hd, ih fun e he => hcs e (List.mem_cons_of_mem _ he)]
    rfl

/-- A child with a new key is where the key leads to. -/
theorem at?_concat {h : α → α} (hh : ∀ a, key (h a) = key a) (hv : at? key p t = some v)
    (hnew : ∀ d ∈ v.children, d.keyOf key ≠ c.keyOf key) :
    at? key (p ++ [c.keyOf key]) (modifyAt key p (extend h [c]) t) = some c := by
  have hnone : v.children.find? (fun d => d.keyOf key = c.keyOf key) = none := by
    simpa using hnew
  rw [at?_append, at?_modifyAt (keepsKey_extend hh [c]), hv]
  simp [at?, hnone]

/-- **A change of the child that has just been added** is a change of what is added. -/
theorem modifyAt_append_extend {h : α → α} (hh : ∀ a, key (h a) = key a)
    (hv : at? key p t = some v) (hnew : ∀ d ∈ v.children, d.keyOf key ≠ c.keyOf key) :
    modifyAt key (p ++ [c.keyOf key]) f (modifyAt key p (extend h [c]) t) =
      modifyAt key p (extend h [f c]) t := by
  rw [modifyAt_append, modifyAt_modifyAt (keepsKey_extend hh [c])]
  refine modifyAt_congr fun w hw => ?_
  obtain rfl := Option.some.inj (hv.symm.trans hw)
  simp only [Function.comp, modifyAt, extend, value_node, children_node]
  rw [modifyFirst_concat hnew]

/-! ## The value of the root -/

theorem modifyAt_mapValue {h : α → α} (hp : p ≠ []) (t : RoseTree α) :
    modifyAt key p f (t.mapValue h) = (modifyAt key p f t).mapValue h := by
  cases p with
  | nil => exact absurd rfl hp
  | cons k p => rfl

theorem at?_mapValue {h : α → α} (hp : p ≠ []) (t : RoseTree α) :
    at? key p (t.mapValue h) = at? key p t := by
  cases p with
  | nil => exact absurd rfl hp
  | cons k p => rfl

end RoseTree
end Lib
end Airdcpp
