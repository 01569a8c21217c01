import Mathlib

/-!
# `Lib/TreeHash` — binary hash trees over a sequence, and hashing one piece at a time

A `TreeHasher` is what a hash tree is built from: a hash of at most `base` elements and a hash
of two hashes. `hash` is the tree's root by its definition, top down: a sequence longer than
`base` is split at the largest `base · 2^j` in front of its end.

Nobody computes it that way, since the length has to be known first. What a writer keeps
instead is a *pile* of finished subtrees, the newest on top: `Piled blocks data` says that
`blocks` are the hashes of consecutive pieces of `data`, each of `base · 2^j` elements with the
`j` falling strictly. It is the binary representation of the number of pieces seen, and putting
a piece on it is incrementing a binary number: `Piled.merge` is one carry.
-/

namespace Airdcpp
namespace Lib

/-- The two hash functions of a tree, and the most elements one leaf takes. -/
structure TreeHasher (β V : Type*) where
  base : Nat
  base_pos : 0 < base
  leaf : List β → V
  node : V → V → V

namespace TreeHasher

variable {β V : Type*} (t : TreeHasher β V)

/-- `base · 2^j` -/
def span (j : Nat) : Nat := t.base * 2 ^ j

theorem span_pos (j : Nat) : 0 < t.span j := Nat.mul_pos t.base_pos (by positivity)

@[simp] theorem span_zero : t.span 0 = t.base := by simp [span]

theorem span_succ (j : Nat) : t.span (j + 1) = 2 * t.span j := by
  unfold span; ring

theorem span_lt_iff {i j : Nat} : t.span i < t.span j ↔ i < j := by
  unfold span
  rw [Nat.mul_lt_mul_left t.base_pos]
  exact Nat.pow_lt_pow_iff_right (by omega)

theorem span_inj {i j : Nat} (h : t.span i = t.span j) : i = j := by
  unfold span at h
  exact Nat.pow_right_injective (le_refl 2) (Nat.eq_of_mul_eq_mul_left t.base_pos h)

theorem span_dvd {i j : Nat} (h : i ≤ j) : t.span i ∣ t.span j :=
  Nat.mul_dvd_mul_left _ (Nat.pow_dvd_pow 2 h)

/-- The next larger span is twice this one. -/
theorem two_mul_span_le {i j : Nat} (h : t.span i < t.span j) : 2 * t.span i ≤ t.span j := by
  rw [← span_succ]
  rcases Nat.lt_or_ge (i + 1) j with hlt | hge
  · exact (t.span_lt_iff.mpr hlt).le
  · rw [show i + 1 = j from le_antisymm (t.span_lt_iff.mp h) hge]

/-! ## The hash of a sequence -/

/-- The largest span in front of the end of `n` elements. -/
def split (n : Nat) : Nat := t.span (Nat.log 2 ((n - 1) / t.base))

theorem split_eq {n j : Nat} (h₁ : t.span j < n) (h₂ : n ≤ 2 * t.span j) :
    t.split n = t.span j := by
  unfold split
  congr 1
  unfold span at h₁ h₂
  refine Nat.log_eq_of_pow_le_of_lt_pow ?_ ?_
  · rw [Nat.le_div_iff_mul_le t.base_pos, Nat.mul_comm]; omega
  · rw [Nat.div_lt_iff_lt_mul t.base_pos, pow_succ]
    calc n - 1 < 2 * (t.base * 2 ^ j) := by omega
      _ = 2 ^ j * 2 * t.base := by ring

theorem split_pos (n : Nat) : 0 < t.split n := t.span_pos _

theorem split_lt {n : Nat} (h : t.base < n) : t.split n < n := by
  have hne : (n - 1) / t.base ≠ 0 := by
    rw [Nat.div_ne_zero_iff]
    exact ⟨t.base_pos.ne', by omega⟩
  have hpow := Nat.pow_log_le_self 2 hne
  rw [Nat.le_div_iff_mul_le t.base_pos, Nat.mul_comm] at hpow
  unfold split span
  omega

/-- The root of the tree over `data`. -/
def hash (data : List β) : V :=
  if data.length ≤ t.base then t.leaf data
  else t.node (hash (data.take (t.split data.length))) (hash (data.drop (t.split data.length)))
termination_by data.length
decreasing_by
  · have := t.split_lt (n := data.length) (by omega)
    simp only [List.length_take]
    omega
  · have := t.split_pos data.length
    simp only [List.length_drop]
    omega

theorem hash_leaf {data : List β} (h : data.length ≤ t.base) : t.hash data = t.leaf data := by
  rw [hash, if_pos h]

/-- **A full left half stands alone.** A complete subtree followed by at most as much again is
    the node over the two. -/
theorem hash_append {d₀ d₁ : List β} {j : Nat} (h₀ : d₀.length = t.span j) (hpos : 0 < d₁.length)
    (hle : d₁.length ≤ t.span j) : t.hash (d₀ ++ d₁) = t.node (t.hash d₀) (t.hash d₁) := by
  have hlen : (d₀ ++ d₁).length = t.span j + d₁.length := by rw [List.length_append, h₀]
  have hbase : t.base ≤ t.span j := Nat.le_mul_of_pos_right _ (by positivity)
  have hsplit : t.split (d₀ ++ d₁).length = d₀.length := by
    rw [hlen, h₀]
    exact t.split_eq (by omega) (by omega)
  rw [hash, if_neg (by omega), hsplit, List.take_left, List.drop_left]

/-! ## Piles of finished subtrees -/

/-- `blocks` are the subtrees of consecutive pieces of the data, the newest first, each with
    the length of its piece; the pieces get strictly shorter. -/
inductive Piled : List (V × Nat) → List β → Prop
  | nil : Piled [] []
  | push {blocks : List (V × Nat)} {d₀ d₁ : List β} (j : Nat) (h : Piled blocks d₀)
      (hlen : d₁.length = t.span j) (habove : ∀ b ∈ blocks, t.span j < b.2) :
      Piled ((t.hash d₁, t.span j) :: blocks) (d₀ ++ d₁)

variable {t}

theorem Piled.size {blocks : List (V × Nat)} {data : List β} (h : t.Piled blocks data) :
    ∀ b ∈ blocks, ∃ j, b.2 = t.span j := by
  induction h with
  | nil => simp
  | push j _ _ _ ih =>
    intro b hb
    cases List.mem_cons.mp hb with
    | inl h => exact ⟨j, by rw [h]⟩
    | inr h => exact ih b h

theorem Piled.above {blocks : List (V × Nat)} {b : V × Nat} {data : List β}
    (h : t.Piled (b :: blocks) data) : ∀ a ∈ blocks, b.2 < a.2 := by
  cases h with
  | push j _ _ habove => exact habove

/-- What a pile holds is a multiple of every span no larger than its blocks. -/
theorem Piled.dvd {blocks : List (V × Nat)} {data : List β} (h : t.Piled blocks data) {i : Nat}
    (hi : ∀ b ∈ blocks, t.span i ≤ b.2) : t.span i ∣ data.length := by
  induction h with
  | nil => simp
  | push j _ hlen _ ih =>
    have hij : i ≤ j := by
      have := hi _ (List.mem_cons_self ..)
      exact Nat.not_lt.mp fun hlt => absurd (t.span_lt_iff.mpr hlt) (by omega)
    rw [List.length_append, hlen]
    exact Nat.dvd_add (ih fun b hb => hi b (List.mem_cons_of_mem _ hb)) (t.span_dvd hij)

theorem Piled.base_dvd {blocks : List (V × Nat)} {data : List β} (h : t.Piled blocks data) :
    t.base ∣ data.length := by
  rw [← t.span_zero]
  refine h.dvd fun b hb => ?_
  obtain ⟨j, hj⟩ := h.size b hb
  rw [hj]
  exact Nat.le_of_dvd (t.span_pos j) (t.span_dvd (Nat.zero_le j))

/-- Only the empty pile holds nothing. -/
theorem Piled.eq_nil {blocks : List (V × Nat)} {data : List β} (h : t.Piled blocks data)
    (hd : data = []) : blocks = [] := by
  cases h with
  | nil => rfl
  | push j _ hlen _ =>
    have hpos := t.span_pos j
    rw [(List.append_eq_nil_iff.mp hd).2, List.length_nil] at hlen
    omega

/-- A pile of blocks shorter than a span holds less than that span. -/
theorem Piled.length_lt {blocks : List (V × Nat)} {data : List β} (h : t.Piled blocks data)
    {k : Nat} (hk : ∀ b ∈ blocks, b.2 < t.span k) : data.length < t.span k := by
  induction h with
  | nil => exact t.span_pos k
  | @push blocks d₀ d₁ j h hlen habove ih =>
    have hjk : j < k := t.span_lt_iff.mp (hk _ (List.mem_cons_self ..))
    have hd₀ := ih fun b hb => hk b (List.mem_cons_of_mem _ hb)
    -- both are multiples of the next span, so a whole one fits in between
    have hdvd : t.span (j + 1) ∣ d₀.length := h.dvd fun b hb => by
      obtain ⟨i, hi⟩ := h.size b hb
      have := habove b hb
      rw [hi] at this ⊢
      rw [span_succ]
      exact t.two_mul_span_le this
    have hstep : t.span (j + 1) ≤ t.span k - d₀.length :=
      Nat.le_of_dvd (by omega) (Nat.dvd_sub (t.span_dvd hjk) hdvd)
    have := t.span_pos j
    rw [span_succ] at hstep
    rw [List.length_append, hlen]
    omega

/-- **One carry.** A piece no longer than the top of the pile makes one subtree with it, no longer
    than what is below. -/
theorem Piled.merge {blocks : List (V × Nat)} {v : V} {j : Nat} {data d₁ : List β}
    (h : t.Piled ((v, t.span j) :: blocks) data) (hpos : 0 < d₁.length)
    (hlen : d₁.length ≤ t.span j) :
    ∃ d₀ e, data = d₀ ++ e ∧ t.Piled blocks d₀ ∧ e.length = t.span j ∧
      t.node v (t.hash d₁) = t.hash (e ++ d₁) ∧ ∀ b ∈ blocks, t.span (j + 1) ≤ b.2 := by
  generalize hs : t.span j = s at h
  cases h with
  | @push _ d₀ e i h he habove =>
    obtain rfl := t.span_inj hs
    refine ⟨d₀, e, rfl, h, he, (t.hash_append he hpos hlen).symm, fun b hb => ?_⟩
    obtain ⟨i, hi⟩ := h.size b hb
    have := habove b hb
    rw [hi] at this ⊢
    rw [span_succ]
    exact t.two_mul_span_le this

/-- A pile whose newest piece is `m` elements short of the length it stands for: the data is at
    its end. -/
inductive PiledShort (t : TreeHasher β V) (m : Nat) : List (V × Nat) → List β → Prop
  | push {blocks : List (V × Nat)} {d₀ d₁ : List β} (j : Nat) (h : t.Piled blocks d₀)
      (hpos : 0 < d₁.length) (hlen : d₁.length + m = t.span j)
      (habove : ∀ b ∈ blocks, t.span j < b.2) :
      PiledShort t m ((t.hash d₁, t.span j) :: blocks) (d₀ ++ d₁)

theorem PiledShort.piled {blocks : List (V × Nat)} {data : List β}
    (h : t.PiledShort 0 blocks data) : t.Piled blocks data := by
  cases h with
  | push j h _ hlen habove => exact Piled.push j h hlen habove

/-- A pile with something in it, of data that ends with a whole piece. -/
theorem Piled.short {blocks : List (V × Nat)} {data : List β} (h : t.Piled blocks data)
    (hne : data ≠ []) : t.PiledShort 0 blocks data := by
  cases h with
  | nil => exact absurd rfl hne
  | push j h hlen habove => exact PiledShort.push j h (hlen ▸ t.span_pos j) hlen habove

/-- What is missing at the end still fits below the next span. -/
theorem PiledShort.length_lt {m : Nat} {blocks : List (V × Nat)} {data : List β}
    (h : t.PiledShort m blocks data) {k : Nat} (hk : ∀ b ∈ blocks, b.2 < t.span k) :
    0 < data.length ∧ data.length + m < t.span k := by
  cases h with
  | @push blocks d₀ d₁ j h hpos hlen habove =>
    -- the pile of the data filled up to the length it stands for
    obtain ⟨x, xs, hx⟩ := List.exists_cons_of_length_pos hpos
    have hfilled : (d₁ ++ List.replicate m x).length = t.span j := by simp [hlen]
    have hfull := Piled.push j h hfilled habove
    have hlt := hfull.length_lt (k := k) (by
      intro b hb
      rcases List.mem_cons.mp hb with rfl | hb
      · exact hk (t.hash d₁, t.span j) (List.mem_cons_self ..)
      · exact hk b (List.mem_cons_of_mem _ hb))
    simp only [List.length_append, List.length_replicate] at hlt ⊢
    omega

/-- **Folding a pile from its top** gives the hash of all it holds. -/
theorem Piled.foldl_node {blocks : List (V × Nat)} {d₀ d₁ : List β} (h : t.Piled blocks d₀)
    (hpos : 0 < d₁.length) (hle : ∀ b ∈ blocks, d₁.length ≤ b.2) :
    blocks.foldl (fun v b => t.node b.1 v) (t.hash d₁) = t.hash (d₀ ++ d₁) := by
  induction h generalizing d₁ with
  | nil => rfl
  | @push blocks d₀ e j h hlen habove ih =>
    have hd₁ : d₁.length ≤ t.span j := hle _ (List.mem_cons_self ..)
    rw [List.foldl_cons, ← t.hash_append hlen hpos hd₁, List.append_assoc]
    apply ih
    · rw [List.length_append]
      omega
    · intro b hb
      obtain ⟨i, hi⟩ := h.size b hb
      have hlt := habove b hb
      rw [hi] at hlt ⊢
      have hnext := t.two_mul_span_le hlt
      rw [List.length_append, hlen]
      omega

theorem PiledShort.foldl_node {m : Nat} {v : V} {n : Nat} {blocks : List (V × Nat)}
    {data : List β} (h : t.PiledShort m ((v, n) :: blocks) data) :
    blocks.foldl (fun v b => t.node b.1 v) v = t.hash data := by
  cases h with
  | push j h hpos hlen habove =>
    apply h.foldl_node hpos
    intro b hb
    have := habove b hb
    omega

/-! ## Hashes that tell everything apart -/

/-- No two sequences of at most `base` elements, and no two pairs of hashes, have one hash, and
    no leaf has the hash of a node. -/
structure Injective (t : TreeHasher β V) : Prop where
  leaf : ∀ a b, a.length ≤ t.base → b.length ≤ t.base → t.leaf a = t.leaf b → a = b
  node : ∀ a b c d, t.node a b = t.node c d → a = c ∧ b = d
  leaf_ne_node : ∀ a b c, t.leaf a ≠ t.node b c

theorem Injective.hash {t : TreeHasher β V} (ht : t.Injective) :
    ∀ {a b : List β}, t.hash a = t.hash b → a = b := by
  intro a b h
  rw [TreeHasher.hash, TreeHasher.hash.eq_1 t b] at h
  by_cases ha : a.length ≤ t.base
  · rw [if_pos ha] at h
    by_cases hb : b.length ≤ t.base
    · rw [if_pos hb] at h
      exact ht.leaf a b ha hb h
    · rw [if_neg hb] at h
      exact absurd h (ht.leaf_ne_node _ _ _)
  · rw [if_neg ha] at h
    by_cases hb : b.length ≤ t.base
    · rw [if_pos hb] at h
      exact absurd h.symm (ht.leaf_ne_node _ _ _)
    · rw [if_neg hb] at h
      obtain ⟨h₁, h₂⟩ := ht.node _ _ _ _ h
      have hsa := t.split_lt (not_le.mp ha)
      have hsa' := t.split_pos a.length
      have htake := ht.hash h₁
      have hdrop := ht.hash h₂
      calc a = a.take (t.split a.length) ++ a.drop (t.split a.length) :=
            (List.take_append_drop _ _).symm
        _ = b.take (t.split b.length) ++ b.drop (t.split b.length) := by rw [htake, hdrop]
        _ = b := List.take_append_drop _ _
termination_by a => a.length
decreasing_by
  · rw [List.length_take]; omega
  · rw [List.length_drop]; omega

end TreeHasher

end Lib
end Airdcpp
