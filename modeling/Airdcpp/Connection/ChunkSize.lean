import Mathlib

/-!
# `Connection/ChunkSize` — how much is asked for at once

After each segment that has been downloaded, the size of the next one is adapted to the speed, so
that it takes about two minutes. Where a transfer was too fast to be measured, the size is doubled,
without a bound. `none` is a signed overflow, or a division by zero.

The size stays usable exactly as long as it has room for what the next call does with it
(`usableAlong_iff`).
-/

namespace Airdcpp
namespace UserConnection

/-- A call of `updateChunkSize`. -/
structure ChunkUpdate where
  leafSize : Int
  lastChunk : Int
  ticks : Nat
  leafSize_pos : 0 < leafSize
  leafSize_le : leafSize ≤ 2 ^ 40
  lastChunk_pos : 0 < lastChunk
  lastChunk_le : lastChunk ≤ 2 ^ 60

/-- `# ms we should aim for per segment` -/
def SEGMENT_TIME : Int := 120 * 1000

def MIN_CHUNK_SIZE : Int := 64 * 1024

/-- The result of a signed operation -/
def signed (n : Int) : Option Int := if -2 ^ 63 ≤ n ∧ n < 2 ^ 63 then some n else none

def divide (a b : ℚ) : Option ℚ := if b = 0 then none else some (a / b)

/-- The branches for the time that the current chunk size would take. -/
def adapt (chunkSize leafSize : Int) (msecs : ℚ) : Option Int :=
  if msecs < (SEGMENT_TIME / 4 : Int) then signed (chunkSize * 2)
  else if msecs < SEGMENT_TIME / (5 / 4) then signed (chunkSize + leafSize)
  else if msecs < SEGMENT_TIME * (5 / 4) then
    -- We're close to our target size - don't change it
    some chunkSize
  else if msecs < (SEGMENT_TIME * 4 : Int) then
    (signed (chunkSize - leafSize)).map (max MIN_CHUNK_SIZE)
  else some (max MIN_CHUNK_SIZE (chunkSize.tdiv 2))

/-- `updateChunkSize` -/
def updateChunkSize (chunkSize : Int) (t : ChunkUpdate) : Option Int :=
  if chunkSize = 0 then some (max (64 * 1024) (min t.lastChunk (1024 * 1024)))
  else if t.ticks ≤ 10 then
    -- Can't rely on such fast transfers - double
    signed (chunkSize * 2)
  else
    (divide (1000 * t.lastChunk) t.ticks).bind fun lastSpeed =>
      (signed (1000 * chunkSize)).bind fun n =>
        (divide n lastSpeed).bind fun msecs => adapt chunkSize t.leafSize msecs

/-! ## Sequences of calls -/

/-- A size that can be asked for -/
def Usable (chunkSize : Int) : Prop := 64 * 1024 ≤ chunkSize ∧ chunkSize < 2 ^ 63

instance (chunkSize : Int) : Decidable (Usable chunkSize) := inferInstanceAs (Decidable (_ ∧ _))

/-- Nothing overflows, and the size is usable after each call. -/
def UsableAlong (chunkSize : Int) : List ChunkUpdate → Prop
  | [] => True
  | t :: ts =>
    match updateChunkSize chunkSize t with
    | none => False
    | some chunkSize => Usable chunkSize ∧ UsableAlong chunkSize ts

/-- The size can be doubled, or counted in milliseconds. -/
def Room (chunkSize : Int) (ticks : Nat) : Prop :=
  chunkSize = 0 ∨ if ticks ≤ 10 then chunkSize * 2 < 2 ^ 63 else 1000 * chunkSize < 2 ^ 63

/-- There is room before each call. -/
def RoomAlong (chunkSize : Int) : List ChunkUpdate → Prop
  | [] => True
  | t :: ts => Room chunkSize t.ticks ∧ ∀ c ∈ updateChunkSize chunkSize t, RoomAlong c ts

instance UsableAlong.decidable : ∀ chunkSize ts, Decidable (UsableAlong chunkSize ts)
  | _, [] => .isTrue trivial
  | chunkSize, t :: ts => by
    rw [UsableAlong]
    split
    · exact .isFalse id
    · next c _ =>
      have := UsableAlong.decidable c ts
      exact inferInstanceAs (Decidable (_ ∧ _))

variable {chunkSize n : Int} {t : ChunkUpdate} {ts : List ChunkUpdate} {msecs : ℚ}

theorem signed_of_range (hlow : -2 ^ 63 ≤ n) (hhigh : n < 2 ^ 63) : signed n = some n :=
  if_pos ⟨hlow, hhigh⟩

theorem signed_of_le (h : 2 ^ 63 ≤ n) : signed n = none := if_neg fun hn =>
    absurd hn.2 (not_lt.mpr h)

/-- **Each branch leaves a usable size** when there is room for the milliseconds. -/
theorem adapt_usable (t : ChunkUpdate) (hsize : Usable chunkSize)
    (hroom : 1000 * chunkSize < 2 ^ 63)
    (msecs : ℚ) : ∃ c, adapt chunkSize t.leafSize msecs = some c ∧ Usable c := by
  obtain ⟨hmin, -⟩ := hsize
  have hpos := t.leafSize_pos
  have hle := t.leafSize_le
  rw [adapt]
  split
  · exact ⟨chunkSize * 2, signed_of_range (by omega) (by omega), by omega, by omega⟩
  · split
    · exact ⟨chunkSize + t.leafSize, signed_of_range (by omega) (by omega), by omega, by omega⟩
    · split
      · exact ⟨chunkSize, rfl, hmin, by omega⟩
      · split
        · rw [signed_of_range (by omega) (by omega)]
          exact ⟨_, rfl, le_max_left .., max_lt (by decide) (by omega)⟩
        · refine ⟨_, rfl, le_max_left .., max_lt (by decide) ?_⟩
          rw [Int.tdiv_eq_ediv_of_nonneg (by omega)]
          omega

theorem divide_of_ne {a b : ℚ} (h : b ≠ 0) : divide a b = some (a / b) := if_neg h

/-- A slow transfer is as good as its milliseconds. -/
theorem updateChunkSize_slow (hsize : Usable chunkSize) (hticks : ¬ t.ticks ≤ 10) :
    ∃ msecs, updateChunkSize chunkSize t =
      (signed (1000 * chunkSize)).bind fun _ => adapt chunkSize t.leafSize msecs := by
  have hne : chunkSize ≠ 0 := by
    have := hsize.1
    omega
  have hticks' : (t.ticks : ℚ) ≠ 0 := by
    rw [Nat.cast_ne_zero]
    omega
  have hlast : (t.lastChunk : ℚ) ≠ 0 := Int.cast_ne_zero.mpr t.lastChunk_pos.ne'
  have hspeed : 1000 * (t.lastChunk : ℚ) / t.ticks ≠ 0 :=
    div_ne_zero (mul_ne_zero (by norm_num) hlast) hticks'
  rw [updateChunkSize, if_neg hne, if_neg hticks, divide_of_ne hticks', Option.bind_some]
  simp only [divide_of_ne hspeed, Option.bind_some]
  rw [signed]
  split
  · exact ⟨_, rfl⟩
  · exact ⟨0, rfl⟩

/-- **A call leaves a usable size exactly when there is room for it.** -/
theorem updateChunkSize_usable_iff (hsize : chunkSize = 0 ∨ Usable chunkSize) (t : ChunkUpdate) :
    (∃ c, updateChunkSize chunkSize t = some c ∧ Usable c) ↔ Room chunkSize t.ticks := by
  rcases hsize with rfl | hsize
  · refine iff_of_true ⟨_, rfl, le_max_left .., max_lt (by decide) ?_⟩ (.inl rfl)
    exact (min_le_right ..).trans_lt (by decide)
  · have hne : chunkSize ≠ 0 := by
      have := hsize.1
      omega
    rw [Room, or_iff_right hne]
    split
    · next hticks =>
      rw [updateChunkSize, if_neg hne, if_pos hticks]
      constructor
      · rintro ⟨c, hc, -⟩
        by_contra hover
        rw [signed_of_le (not_lt.mp hover)] at hc
        cases hc
      · intro hroom
        obtain ⟨hmin, -⟩ := hsize
        exact ⟨chunkSize * 2, signed_of_range (by omega) hroom, by omega, hroom⟩
    · next hticks =>
      obtain ⟨msecs, hslow⟩ := updateChunkSize_slow hsize hticks
      rw [hslow]
      constructor
      · rintro ⟨c, hc, -⟩
        by_contra hover
        rw [signed_of_le (not_lt.mp hover)] at hc
        cases hc
      · intro hroom
        obtain ⟨hmin, -⟩ := id hsize
        rw [signed_of_range (by omega) hroom, Option.bind_some]
        exact adapt_usable t hsize hroom msecs

theorem usableAlong_cons :
    UsableAlong chunkSize (t :: ts) ↔
      ∃ c, updateChunkSize chunkSize t = some c ∧ Usable c ∧ UsableAlong c ts := by
  rw [UsableAlong]
  cases updateChunkSize chunkSize t <;> simp

theorem usableAlong_iff_of_size (hsize : chunkSize = 0 ∨ Usable chunkSize) (ts : List ChunkUpdate) :
    UsableAlong chunkSize ts ↔ RoomAlong chunkSize ts := by
  induction ts generalizing chunkSize with
  | nil => exact iff_of_true trivial trivial
  | cons t ts ih =>
    rw [usableAlong_cons, RoomAlong, ← updateChunkSize_usable_iff hsize t]
    constructor
    · rintro ⟨c, hc, husable, hts⟩
      refine ⟨⟨c, hc, husable⟩, fun c' hc' => ?_⟩
      obtain rfl := Option.some.inj (hc.symm.trans hc')
      exact (ih (.inr husable)).mp hts
    · rintro ⟨⟨c, hc, husable⟩, hts⟩
      exact ⟨c, hc, husable, (ih (.inr husable)).mpr (hts c hc)⟩

/-- **The chunk size of a new connection stays usable**, and nothing overflows, exactly as long as
    there is room for it before each call. -/
theorem usableAlong_iff (ts : List ChunkUpdate) : UsableAlong 0 ts ↔ RoomAlong 0 ts :=
  usableAlong_iff_of_size (.inl rfl) ts

/-- After 48 segments that were too fast to be measured, the size would be `2 ^ 63`. -/
theorem usableAlong_fast : ¬ ∀ ts : List ChunkUpdate, UsableAlong 0 ts := by
  intro h
  exact absurd (h (List.replicate 48 ⟨1024, 1024, 0, by decide, by decide, by decide, by decide⟩))
    (by decide +kernel)

end UserConnection
end Airdcpp
