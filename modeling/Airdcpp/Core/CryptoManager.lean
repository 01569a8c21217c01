import Airdcpp.Util.Strings
import Airdcpp.Lib.Cells

/-!
# `Core/CryptoManager` — the answer to an NMDC lock

The lock comes from a hub or from another client, and so does what is in it. `makeKey` computes a
key from it and counts the bytes that may not be sent; `keySubst` takes an array that has ten cells
for each of them and writes them out as `/%DCNddd%/`.

The count is made while the first byte of the key is not there yet, but it is made of all the others
and, at the end, of the first: the array is never left (`makeKey_safe`).
-/

namespace Airdcpp

open Lib Lib.Cells

namespace CryptoManager

def isExtra (b : UInt8) : Bool := b == 0 || b == 5 || b == 124 || b == 96 || b == 126 || b == 36

/-- `temp[j++] = b` -/
def put (temp : Cells UInt8 × Nat) (b : UInt8) : Option (Cells UInt8 × Nat) := do
  let cells ← temp.1.write temp.2 b
  some (cells, temp.2 + 1)

/-- What the `switch` writes. -/
def digits (b : UInt8) : Str :=
  if b = 0 then str "000"
  else if b = 5 then str "005"
  else if b = 36 then str "036"
  else if b = 96 then str "096"
  else if b = 124 then str "124"
  else if b = 126 then str "126"
  else []

def substByte (temp : Cells UInt8 × Nat) (b : UInt8) : Option (Cells UInt8 × Nat) :=
  if isExtra b then (str "/%DCN" ++ digits b ++ str "%/").foldlM put temp else put temp b

def keySubst (aKey : Cells UInt8) (len n : Nat) : Option Str := do
  let (temp, j) ← (List.range' 0 len).foldlM (fun temp i => (aKey.read i).bind (substByte temp))
    (alloc (len + n * 10), 0)
  temp.readAll 0 j

/-- `((v1 >> 4) | (v1 << 4)) & 0xff` -/
def swapNibbles (v1 : UInt8) : UInt8 := (v1 >>> 4) ||| (v1 <<< 4)

/-- The body of the loop of `makeKey`. -/
def keyByte (aLock : Str) (temp : Cells UInt8 × Nat) (i : Nat) : Option (Cells UInt8 × Nat) := do
  let x ← charAt aLock i
  let y ← charAt aLock (i - 1)
  let cells ← temp.1.write i (swapNibbles (x ^^^ y))
  let v ← cells.read i
  some (cells, if isExtra v then temp.2 + 1 else temp.2)

/-- `makeKey` before it calls `keySubst`: `temp` and `extra` -/
def finalKey (aLock : Str) : Option (Cells UInt8 × Nat) := do
  let x ← charAt aLock 0
  let temp ← (alloc aLock.length).write 0 (swapNibbles (x ^^^ 5))
  let (temp, extra) ← (List.range' 1 (aLock.length - 1)).foldlM (keyByte aLock) (temp, 0)
  let first ← temp.read 0
  let last ← temp.read (aLock.length - 1)
  let temp ← temp.write 0 (first ^^^ last)
  let v ← temp.read 0
  some (temp, if isExtra v then extra + 1 else extra)

def makeKey (aLock : Str) : Option Str :=
  if aLock.length < 3 then some []
  else do
    let (temp, extra) ← finalKey aLock
    keySubst temp aLock.length extra

/-! ## What is written for a key -/

/-- A part of the answer. -/
inductive Piece where
  | byte (b : UInt8)
  | escape (ddd : Str)
deriving DecidableEq

namespace Piece

def text : Piece → Str
  | byte b => [b]
  | escape ddd => str "/%DCN" ++ ddd ++ str "%/"

/-- The byte that a part stands for: `ddd` is a decimal number. -/
def value : Piece → UInt8
  | byte b => b
  | escape ddd => ddd.foldl (fun n d => 10 * n + (d - chr '0')) 0

end Piece

def piece (b : UInt8) : Piece := if isExtra b then .escape (digits b) else .byte b

/-- What `keySubst` writes for a key. -/
def answer (key : Str) : Str := (key.map piece).flatMap Piece.text

variable {aLock key s : Str} {b x y : UInt8} {n : Nat}

theorem isExtra_iff : isExtra b = true ↔ b ∈ [0, 5, 36, 96, 124, 126] := by
  simp only [isExtra, Bool.or_eq_true, beq_iff_eq, List.mem_cons, List.not_mem_nil, or_false]
  tauto

/-- A property of all bytes that may not be sent. -/
theorem forall_extra {P : UInt8 → Prop} (h : ∀ b ∈ [0, 5, 36, 96, 124, 126], P b)
    (hb : isExtra b = true) : P b :=
  h b (isExtra_iff.mp hb)

theorem piece_of_extra (h : isExtra b = true) : piece b = .escape (digits b) := if_pos h

theorem piece_of_not_extra (h : isExtra b = false) : piece b = .byte b := if_neg (by simp [h])

/-- Each byte can be read off what is written for it. -/
theorem value_piece (b : UInt8) : (piece b).value = b := by
  cases h : isExtra b with
  | false => rw [piece_of_not_extra h, Piece.value]
  | true =>
    rw [piece_of_extra h]
    exact @forall_extra b (fun b => (Piece.escape (digits b)).value = b) (by decide +kernel) h

theorem map_value_piece (key : Str) : (key.map piece).map Piece.value = key := by
  rw [List.map_map]
  conv_rhs => rw [← List.map_id key]
  exact List.map_congr_left fun b _ => value_piece b

theorem not_extra_of_mem_text (h : b ∈ (piece x).text) : isExtra b = false := by
  cases hx : isExtra x with
  | false =>
    rw [piece_of_not_extra hx, Piece.text, List.mem_singleton] at h
    rwa [h]
  | true =>
    rw [piece_of_extra hx] at h
    have hall := @forall_extra x (fun x => ∀ b ∈ (Piece.escape (digits x)).text, isExtra b = false)
      (by decide +kernel) hx
    exact hall b h

theorem not_extra_of_mem_answer (h : b ∈ answer key) : isExtra b = false := by
  obtain ⟨p, hp, hb⟩ := List.mem_flatMap.mp h
  obtain ⟨x, -, rfl⟩ := List.mem_map.mp hp
  exact not_extra_of_mem_text hb

theorem length_text_piece (b : UInt8) : (piece b).text.length = if isExtra b then 10 else 1 := by
  cases h : isExtra b with
  | false =>
    rw [piece_of_not_extra h]
    rfl
  | true =>
    rw [piece_of_extra h]
    exact @forall_extra b (fun b => (Piece.escape (digits b)).text.length = 10)
      (by decide +kernel) h

/-- Nine cells more for each byte that is substituted. -/
theorem length_answer (key : Str) : (answer key).length = key.length + 9 * key.countP isExtra := by
  induction key with
  | nil => rfl
  | cons b key ih =>
    have hcons : answer (b :: key) = (piece b).text ++ answer key := rfl
    rw [hcons, List.length_append, ih, length_text_piece, List.countP_cons, List.length_cons]
    split <;> omega

/-! ## `keySubst` -/

theorem foldlM_put (s t : Str) (k : Nat) :
    t.foldlM put (filled s (t.length + k), s.length) =
      some (filled (s ++ t) k, (s ++ t).length) := by
  induction t generalizing s with
  | nil => simp
  | cons b t ih =>
    have hput : put (filled s (t.length + k + 1), s.length) b =
        some (filled (s ++ [b]) (t.length + k), (s ++ [b]).length) := by
      rw [put, write_filled, List.length_append]
      rfl
    rw [List.length_cons, Nat.add_right_comm, List.foldlM_cons, hput]
    exact (ih (s ++ [b])).trans (by rw [List.append_assoc, List.singleton_append])

theorem substByte_eq (temp : Cells UInt8 × Nat) (b : UInt8) :
    substByte temp b = (piece b).text.foldlM put temp := by
  cases h : isExtra b with
  | false =>
    rw [piece_of_not_extra h, substByte, if_neg (by simp [h]), Piece.text, List.foldlM_cons]
    cases put temp b <;> rfl
  | true => rw [piece_of_extra h, substByte, if_pos h, Piece.text]

theorem foldlM_substByte (s key : Str) (k : Nat) :
    key.foldlM substByte (filled s ((answer key).length + k), s.length) =
      some (filled (s ++ answer key) k, (s ++ answer key).length) := by
  induction key generalizing s with
  | nil => simp [answer]
  | cons b key ih =>
    have hcons : answer (b :: key) = (piece b).text ++ answer key := rfl
    rw [hcons, List.length_append, Nat.add_assoc, List.foldlM_cons, substByte_eq, foldlM_put]
    exact (ih _).trans (by rw [List.append_assoc])

/-- **The array is long enough** if no substituted byte is left out of `n`. -/
theorem keySubst_eq (h : key.countP isExtra ≤ n) :
    keySubst (filled key 0) key.length n = some (answer key) := by
  obtain ⟨k, hk⟩ := Nat.exists_eq_add_of_le (show (answer key).length ≤ key.length + n * 10 by
    rw [length_answer]
    omega)
  have hread := foldlM_read substByte key 0 0 (filled [] ((answer key).length + k), 0)
  rw [Nat.sub_zero, List.drop_zero] at hread
  have hloop := foldlM_substByte [] key k
  rw [keySubst, hk, alloc_eq, hread]
  rw [List.length_nil, List.nil_append] at hloop
  rw [hloop]
  have hall := @readAll_filled _ (answer key) 0 k (answer key).length (by rw [Nat.zero_add])
  rwa [List.drop_zero, List.take_length] at hall

/-! ## `makeKey` -/

/-- The key bytes for `s` behind `y`. -/
def keyTail : (y : UInt8) → Str → Str
  | _, [] => []
  | y, x :: s => swapNibbles (x ^^^ y) :: keyTail x s

@[simp] theorem length_keyTail (y : UInt8) (s : Str) : (keyTail y s).length = s.length := by
  induction s generalizing y with
  | nil => rfl
  | cons x s ih => rw [keyTail, List.length_cons, List.length_cons, ih]

theorem getElem?_keyTail {i : Nat} (hy : (y :: s)[i]? = some b) (hx : (y :: s)[i + 1]? = some x) :
    (keyTail y s)[i]? = some (swapNibbles (x ^^^ b)) := by
  induction s generalizing y i with
  | nil => cases hx
  | cons z s ih =>
    cases i with
    | zero =>
      cases hy
      cases hx
      rfl
    | succ i => exact ih hy hx

theorem charAt_append (front : Str) (b : UInt8) (s : Str) :
    charAt (front ++ b :: s) front.length = some b := by
  rw [charAt, if_pos (by simp), List.getD_append_right _ _ _ _ (le_refl _), Nat.sub_self]
  rfl

theorem keyByte_eq (front : Str) (y x : UInt8) (rest : Str) (extra : Nat)
    (hs : s.length = front.length + 1) :
    keyByte (front ++ y :: x :: rest) (filled s (rest.length + 1), extra) (front.length + 1) =
      some (filled (s ++ [swapNibbles (x ^^^ y)]) rest.length,
        if isExtra (swapNibbles (x ^^^ y)) then extra + 1 else extra) := by
  have hx := charAt_append (front ++ [y]) x rest
  rw [List.append_assoc, List.singleton_append, List.length_append, List.length_singleton] at hx
  have hwrite := write_filled s rest.length (swapNibbles (x ^^^ y))
  have hread : (filled (s ++ [swapNibbles (x ^^^ y)]) rest.length).read s.length =
      some (swapNibbles (x ^^^ y)) := read_filled (by simp)
  rw [hs] at hwrite hread
  simp [keyByte, hx, charAt_append, hwrite, hread]

/-- The loop of `makeKey`, from some place of the lock on. -/
theorem foldlM_keyByte (front : Str) (y : UInt8) (rest : Str) (extra : Nat)
    (hs : s.length = front.length + 1) :
    (List.range' (front.length + 1) rest.length).foldlM (keyByte (front ++ y :: rest))
        (filled s rest.length, extra) =
      some (filled (s ++ keyTail y rest) 0, extra + (keyTail y rest).countP isExtra) := by
  induction rest generalizing front y s extra with
  | nil => simp [keyTail]
  | cons x rest ih =>
    have hnext := ih (s := s ++ [swapNibbles (x ^^^ y)]) (front ++ [y]) x
    rw [List.length_cons, List.range'_succ, List.foldlM_cons, keyByte_eq front y x rest extra hs]
    simp only [List.length_append, List.length_singleton, List.append_assoc, List.singleton_append,
      hs, forall_const] at hnext
    refine (hnext _).trans ?_
    rw [keyTail, List.countP_cons]
    split <;> simp [Nat.add_assoc, Nat.add_comm 1]

/-- What the key of a lock is. -/
structure IsKey (aLock key : Str) : Prop where
  length_eq : key.length = aLock.length
  first : ∀ x last, aLock[0]? = some x → key[key.length - 1]? = some last →
    key[0]? = some (swapNibbles (x ^^^ 5) ^^^ last)
  next : ∀ i y x, aLock[i]? = some y → aLock[i + 1]? = some x →
    key[i + 1]? = some (swapNibbles (x ^^^ y))

/-- The key of a lock, byte by byte. -/
def lockKey : Str → Str
  | [] => []
  | x :: s =>
    (swapNibbles (x ^^^ 5) ^^^ (keyTail x s).getLastD (swapNibbles (x ^^^ 5))) :: keyTail x s

theorem isKey_lockKey (h : 2 ≤ aLock.length) : IsKey aLock (lockKey aLock) := by
  obtain ⟨x, s, rfl⟩ := List.exists_cons_of_length_pos (show 0 < aLock.length by omega)
  have hne : s ≠ [] := by
    rintro rfl
    simp at h
  refine ⟨by simp [lockKey], ?_, ?_⟩
  · intro x' last hx hlast
    cases hx
    obtain ⟨v, t, ht⟩ : ∃ v t, keyTail x s = v :: t := List.exists_cons_of_length_pos (by
      rw [length_keyTail]
      exact List.length_pos_iff.mpr hne)
    rw [lockKey, ht, List.length_cons, Nat.add_sub_cancel, List.length_cons,
      List.getElem?_cons_succ, ← Nat.add_sub_cancel t.length 1, ← List.length_cons (a := v),
      ← List.getLast?_eq_getElem?] at hlast
    rw [lockKey, ht, List.getLastD_eq_getLast?, hlast]
    rfl
  · intro i y x' hy hx
    exact getElem?_keyTail hy hx

theorem finalKey_eq (h : 2 ≤ aLock.length) :
    finalKey aLock = some (filled (lockKey aLock) 0, (lockKey aLock).countP isExtra) := by
  obtain ⟨x, s, rfl⟩ := List.exists_cons_of_length_pos (show 0 < aLock.length by omega)
  have hne : s ≠ [] := by
    rintro rfl
    simp at h
  have hchar : charAt (x :: s) 0 = some x := charAt_append [] x s
  have hwrite : (alloc (x :: s).length).write 0 (swapNibbles (x ^^^ 5)) =
      some (filled [swapNibbles (x ^^^ 5)] s.length) := write_filled [] s.length _
  have hloop : (List.range' 1 s.length).foldlM (keyByte (x :: s))
      (filled [swapNibbles (x ^^^ 5)] s.length, 0) =
      some (filled (swapNibbles (x ^^^ 5) :: keyTail x s) 0, (keyTail x s).countP isExtra) := by
    have hrun := @foldlM_keyByte [swapNibbles (x ^^^ 5)] [] x s 0 rfl
    rwa [Nat.zero_add] at hrun
  obtain ⟨v, hv⟩ : ∃ v, v = swapNibbles (x ^^^ 5) := ⟨_, rfl⟩
  obtain ⟨last, hlast⟩ : ∃ last, (keyTail x s).getLast? = some last := by
    rw [← Option.isSome_iff_exists, List.getLast?_isSome, ← List.length_pos_iff, length_keyTail]
    exact List.length_pos_iff.mpr hne
  have hend : (v :: keyTail x s)[(x :: s).length - 1]? = some last := by
    rw [← List.length_pos_iff] at hne
    rw [List.length_cons, Nat.add_sub_cancel, ← Nat.sub_add_cancel hne, List.getElem?_cons_succ,
      ← length_keyTail x s, ← List.getLast?_eq_getElem?, hlast]
  have hset := @write_filled_set _ (v :: keyTail x s) 0 0 (Nat.succ_pos _) (v ^^^ last)
  rw [List.set_cons_zero] at hset
  have hfirst : ∀ w, (filled (w :: keyTail x s) 0).read 0 = some w := fun w => read_filled rfl
  have hread := @read_filled _ _ last _ 0 hend
  rw [← hv] at hwrite hloop
  rw [finalKey, hchar]
  simp only [Option.bind_eq_bind, Option.bind_some, List.length_cons, Nat.add_sub_cancel] at *
  rw [← hv, hwrite]
  simp only [Option.bind_some, hloop, hfirst, hread, hset]
  rw [lockKey, ← hv, List.getLastD_eq_getLast?, hlast, Option.getD_some, List.countP_cons]
  split <;> rfl

/-- What `makeKey` gives to the hub for a lock. -/
structure Answers (aLock result key : Str) : Prop where
  isKey : IsKey aLock key
  -- the bytes that are substituted are those that were counted
  counted : finalKey aLock = some (filled key 0, key.countP isExtra)
  written : result = (key.map piece).flatMap Piece.text
  value : (key.map piece).map Piece.value = key
  safe : ∀ b ∈ result, b ∉ ([0, 5, 36, 96, 124, 126] : List UInt8)

/-- **The key response**: no cell outside of the arrays is written or read for any lock, nothing
    that may not be sent is in the answer, and the key can be read off it. -/
theorem makeKey_safe (h : 3 ≤ aLock.length) :
    ∃ result key, makeKey aLock = some result ∧ Answers aLock result key := by
  have hlock : 2 ≤ aLock.length := Nat.le_of_succ_le h
  have hisKey := isKey_lockKey hlock
  refine ⟨answer (lockKey aLock), lockKey aLock, ?_, hisKey, finalKey_eq hlock, rfl,
    map_value_piece _, ?_⟩
  · rw [makeKey, if_neg (Nat.not_lt.mpr h), finalKey_eq hlock]
    have hsubst := keySubst_eq (le_refl ((lockKey aLock).countP isExtra))
    rw [hisKey.length_eq] at hsubst
    exact hsubst
  · intro b hb hextra
    have hsafe := not_extra_of_mem_answer hb
    rw [isExtra_iff.mpr hextra] at hsafe
    cases hsafe

theorem makeKey_safe_lock :
    ∃ result key, makeKey (str "EXTENDEDPROTOCOL") = some result ∧
      Answers (str "EXTENDEDPROTOCOL") result key :=
  makeKey_safe (by decide)

end CryptoManager

end Airdcpp
