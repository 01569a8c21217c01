import Airdcpp.Hash.Hasher

/-!
# `Hash/HasherAccounting` — the counters of a hasher

`Tracked` is what the counters are while nothing interferes with the item being hashed: `devices`
counts the devices of the items, and `totalBytesLeft` is the sum of what is to be read, which fits
in 63 bits. Each operation keeps it, so `Accounted` holds in every state of such a run.
-/

namespace Airdcpp
namespace HashManager
namespace Hasher

open Lib (CountMap.Counts)

variable {h : Hasher} {o : Op} {locale : Locale}

/-! ## Sums that fit -/

theorem int64_of_range {n : Int} (h0 : 0 ≤ n) (h1 : n < 2 ^ 63) : int64 n = n := by
  unfold int64
  refine Int.bmod_eq_of_le ?_ ?_
  · omega
  · omega

/-- Intermediate results may wrap around. -/
theorem int64_add_int64 (m n : Int) : int64 (m + int64 n) = int64 (m + n) := by
  simp [int64]

/-! ## The invariant -/

structure Tracked (h : Hasher) : Prop where
  devices : Lib.CountMap.Counts h.devices h.queuedDevices
  bytes : h.totalBytesLeft = h.queuedBytes + h.unread
  sizes : ∀ i ∈ h.w.toList, 0 ≤ i.fileSize
  left : ∀ c ∈ h.hashing, c.cleared = false ∧ 0 ≤ c.sizeLeft ∧
    (c.stage = .taken → c.sizeLeft = c.wi.fileSize)
  range : h.totalBytesLeft < 2 ^ 63

theorem Tracked.queued_nonneg (ht : Tracked h) : 0 ≤ h.queuedBytes := by
  refine List.sum_nonneg ?_
  intro n hn
  obtain ⟨i, hi, rfl⟩ := List.mem_map.mp hn
  exact ht.sizes i hi

theorem Tracked.unread_nonneg (ht : Tracked h) : 0 ≤ h.unread := by
  unfold unread
  split
  · exact le_rfl
  · rename_i c hc
    split
    · exact le_rfl
    · exact (ht.left c hc).2.1

theorem Tracked.accounted (ht : Tracked h) : Accounted h where
  devices := ht.devices
  bytes := ht.bytes
  nonneg := by
    rw [ht.bytes]
    exact Int.add_nonneg ht.queued_nonneg ht.unread_nonneg

theorem tracked_initial (hi : Initial h) : Tracked h := by
  subst hi
  exact ⟨Lib.CountMap.counts_nil, rfl, by simp [Lib.SortedVector.empty], by simp, by decide⟩

/-! ## The operations -/

theorem Tracked.hashFile {fileName filePathLower : Str} {size aDeviceId : Int} (ht : Tracked h)
    (hsize : 0 ≤ size) (hrange : h.queuedBytes + h.unread + size < 2 ^ 63) :
    Tracked (next locale h (.hashFile fileName filePathLower size aDeviceId)) := by
  simp only [next]
  split
  · exact ht
  · rename_i hnew
    have hperm := Lib.SortedVector.insert_perm (Option.not_isSome_iff_eq_none.mp hnew)
    refine ⟨?_, ?_, ?_, ht.left, ?_⟩
    · refine (ht.devices.bump aDeviceId).perm ?_
      refine List.Perm.trans List.perm_middle.symm ?_
      exact ((hperm.map (·.deviceId)).append_left _).symm
    · have hsum := (hperm.map (·.fileSize)).sum_eq
      have hq := ht.queued_nonneg
      have hu := ht.unread_nonneg
      simp only [ht.bytes, queuedBytes, unread, hsum, List.map_cons,
        List.sum_cons] at hrange hq hu ⊢
      rw [int64_of_range (by omega) (by omega)]
      omega
    · intro i hi
      rcases List.mem_cons.mp (hperm.mem_iff.mp hi) with rfl | hi
      · exact hsize
      · exact ht.sizes i hi
    · have hq := ht.queued_nonneg
      have hu := ht.unread_nonneg
      simp only [ht.bytes]
      rw [int64_of_range (by omega) hrange]
      exact hrange

/-- The loop of `stopHashing` over the items that it takes out. -/
theorem foldl_eraseItem {l : List WorkItem} {ds : List Int} {n : Int}
    (hd : Lib.CountMap.Counts h.devices (l.map (·.deviceId) ++ ds))
    (hb : h.totalBytesLeft = (l.map (·.fileSize)).sum + n) (hl : ∀ i ∈ l, 0 ≤ i.fileSize)
    (hn : 0 ≤ n) (hrange : h.totalBytesLeft < 2 ^ 63) :
    Lib.CountMap.Counts (l.foldl eraseItem h).devices ds ∧
      (l.foldl eraseItem h).totalBytesLeft = n ∧
      (l.foldl eraseItem h).hashing = h.hashing := by
  induction l generalizing h with
  | nil => exact ⟨hd, by simpa using hb, rfl⟩
  | cons i l ih =>
    have hsize := hl i List.mem_cons_self
    have hrest : 0 ≤ (l.map (·.fileSize)).sum := by
      refine List.sum_nonneg ?_
      intro m hm
      obtain ⟨j, hj, rfl⟩ := List.mem_map.mp hm
      exact hl j (List.mem_cons_of_mem _ hj)
    rw [List.map_cons, List.sum_cons] at hb
    have hleft : int64 (h.totalBytesLeft - i.fileSize) = (l.map (·.fileSize)).sum + n := by
      rw [int64_of_range (by omega) (by omega)]
      omega
    have hnext := @ih (eraseItem h i) hd.drop hleft (fun j hj => hl j (List.mem_cons_of_mem _ hj))
      (by simp only [eraseItem, removeDevice, hleft]; omega)
    exact hnext

theorem Tracked.eraseItems {stopped : WorkItem → Bool} (ht : Tracked h) :
    Tracked (h.eraseItems stopped) := by
  have hperm := List.filter_append_perm stopped h.w.toList
  have hsum := (hperm.map (·.fileSize)).sum_eq
  rw [List.map_append, List.sum_append] at hsum
  have hpart : ∀ p : WorkItem → Bool, 0 ≤ ((h.w.toList.filter p).map (·.fileSize)).sum := by
    intro p
    refine List.sum_nonneg ?_
    intro m hm
    obtain ⟨j, hj, rfl⟩ := List.mem_map.mp hm
    exact ht.sizes j (List.mem_of_mem_filter hj)
  have hkept := hpart fun i => !stopped i
  have hstopped := hpart stopped
  have hu := ht.unread_nonneg
  have hrange := ht.range
  have hdevices : Lib.CountMap.Counts h.devices ((h.w.toList.filter stopped).map (·.deviceId) ++
      (h.hashing.toList.map (fun c => c.wi.deviceId) ++
        (h.w.toList.filter fun i => !stopped i).map (·.deviceId))) := by
    refine ht.devices.perm ?_
    refine ((hperm.map (·.deviceId)).append_left _).symm.trans ?_
    rw [List.map_append, ← List.append_assoc, ← List.append_assoc]
    exact List.perm_append_comm.append_right _
  have hbytes : h.totalBytesLeft = ((h.w.toList.filter stopped).map (·.fileSize)).sum +
      (((h.w.toList.filter fun i => !stopped i).map (·.fileSize)).sum + h.unread) := by
    rw [ht.bytes, queuedBytes, ← hsum]
    omega
  obtain ⟨hdev, htotal, hhashing⟩ := foldl_eraseItem hdevices hbytes
    (fun i hi => ht.sizes i (List.mem_of_mem_filter hi)) (by omega) hrange
  constructor
  · simp only [Hasher.eraseItems, queuedDevices, hhashing]
    exact hdev
  · simp only [Hasher.eraseItems, queuedBytes, unread, hhashing]
    exact htotal
  · intro i hi
    exact ht.sizes i (List.mem_of_mem_filter hi)
  · intro c hc
    exact ht.left c (hhashing ▸ hc)
  · simp only [Hasher.eraseItems, htotal]
    omega

/-- With nothing being hashed the queue may be thrown away. -/
theorem Tracked.clear (hnone : h.hashing = none) : Tracked h.clear := by
  refine ⟨?_, ?_, ?_, ?_, ?_⟩
  · rw [queuedDevices, Hasher.clear, hnone]
    exact Lib.CountMap.counts_nil
  · rw [queuedBytes, unread, Hasher.clear, hnone]
    rfl
  · simp [Hasher.clear, Lib.SortedVector.empty]
  · simp [Hasher.clear, hnone]
  · simp [Hasher.clear]

theorem Tracked.popFront (ht : Tracked h) (hnone : h.hashing = none) :
    Tracked (next locale h .popFront) := by
  simp only [next]
  cases hw : h.w.toList with
  | nil => exact ht
  | cons wi rest =>
    have htail : h.w.popFront.toList = rest := by
      show h.w.toList.tail = rest
      rw [hw, List.tail_cons]
    refine ⟨?_, ?_, ?_, ?_, ht.range⟩
    · have hd := ht.devices
      simp only [queuedDevices, hnone, hw] at hd
      simp only [queuedDevices, htail]
      exact hd
    · have hb := ht.bytes
      simp only [queuedBytes, unread, hnone, hw, List.map_cons, List.sum_cons] at hb
      simp [queuedBytes, unread, htail]
      omega
    · intro i hi
      rw [htail] at hi
      exact ht.sizes i (by rw [hw]; exact List.mem_cons_of_mem _ hi)
    · intro c hc
      obtain rfl := Option.some.inj hc
      exact ⟨rfl, ht.sizes wi (by rw [hw]; exact List.mem_cons_self), fun _ => rfl⟩

/-- An operation on the item being hashed: the queue and the devices stay. -/
theorem Tracked.update {c c' : Hashing} {total : Int} (ht : Tracked h) (hc : h.hashing = some c)
    (hwi : c'.wi = c.wi) (hcleared : c'.cleared = false) (hleft : 0 ≤ c'.sizeLeft)
    (hstage : c'.stage = .taken → c'.sizeLeft = c'.wi.fileSize)
    (htotal : total = h.queuedBytes + if c'.stage = .returned then 0 else c'.sizeLeft)
    (hrange : total < 2 ^ 63) :
    Tracked { h with totalBytesLeft := total, hashing := some c' } where
  devices := by
    have hd := ht.devices
    simp only [queuedDevices, hc] at hd
    simp only [queuedDevices, hwi, Option.toList_some, List.map_cons, List.map_nil]
    exact hd
  bytes := by
    rw [htotal]
    simp [queuedBytes, unread, hcleared]
  sizes := ht.sizes
  left d hd := by
    obtain rfl := Option.some.inj hd
    exact ⟨hcleared, hleft, hstage⟩
  range := hrange

theorem Tracked.bytes_of_hashing {c : Hashing} (ht : Tracked h) (hc : h.hashing = some c)
    (hstage : c.stage ≠ .returned) : h.totalBytesLeft = h.queuedBytes + c.sizeLeft := by
  rw [ht.bytes, unread, hc]
  simp [hstage, (ht.left c hc).1]

theorem isAt_iff {stages : List HashStage} :
    h.isAt stages = true ↔ ∃ c, h.hashing = some c ∧ c.stage ∈ stages := by
  unfold isAt
  cases h.hashing with
  | none => simp
  | some c => simp

theorem Tracked.openFile {size : Int} (ht : Tracked h) (hat : h.isAt [.taken] = true)
    (hsize : 0 ≤ size) (hrange : h.queuedBytes + size < 2 ^ 63) :
    Tracked (next locale h (.openFile size)) := by
  obtain ⟨c, hc, hstage⟩ := isAt_iff.mp hat
  rw [List.mem_singleton] at hstage
  obtain ⟨hcleared, -, hleft⟩ := ht.left c hc
  have hb := ht.bytes_of_hashing hc (by simp [hstage])
  have hq := ht.queued_nonneg
  have hnew : int64 (h.totalBytesLeft + int64 (size - c.wi.fileSize)) = h.queuedBytes + size := by
    rw [int64_add_int64, hb, hleft hstage, int64_of_range (by omega) (by omega)]
    omega
  simp only [next, hc, hnew]
  exact ht.update hc rfl hcleared hsize (by simp) (by simp) hrange

theorem Tracked.readChunk {n : Nat} (ht : Tracked h) (hat : h.isAt [.reading] = true)
    (hn : ∀ c ∈ h.hashing, n ≤ c.sizeLeft ∧ (h.stopping = true → n = c.sizeLeft)) :
    Tracked (next locale h (.readChunk n)) := by
  obtain ⟨c, hc, hstage⟩ := isAt_iff.mp hat
  rw [List.mem_singleton] at hstage
  obtain ⟨hcleared, -, -⟩ := ht.left c hc
  obtain ⟨hle, hlast⟩ := hn c hc
  have hb := ht.bytes_of_hashing hc (by simp [hstage])
  have hq := ht.queued_nonneg
  have hrange := ht.range
  -- nothing is read where nothing is left
  have hnew : (if 0 < h.totalBytesLeft then int64 (h.totalBytesLeft - n) else h.totalBytesLeft) =
      h.queuedBytes + (c.sizeLeft - n) := by
    split
    · rw [int64_of_range (by omega) (by omega)]
      omega
    · omega
  simp only [next, hc, Hasher.readChunk, hnew]
  refine ht.update hc rfl hcleared (by simp only; omega) ?_ ?_ (by omega)
  · cases h.stopping <;> simp
  · cases hstop : h.stopping with
    | false => simp
    | true =>
      have hall := hlast hstop
      simp [hall]

theorem Tracked.endOfFile (ht : Tracked h) (hat : h.isAt [.reading] = true)
    (hend : ∀ c ∈ h.hashing, c.sizeLeft = 0) : Tracked (next locale h .endOfFile) := by
  obtain ⟨c, hc, hstage⟩ := isAt_iff.mp hat
  rw [List.mem_singleton] at hstage
  obtain ⟨hcleared, hleft, -⟩ := ht.left c hc
  have hb := ht.bytes_of_hashing hc (by simp [hstage])
  have hzero := hend c hc
  simp only [next, hc, Option.map_some]
  exact ht.update hc rfl hcleared hleft (by simp) (by simp [hb, hzero]) ht.range

theorem Tracked.throwFileException (ht : Tracked h)
    (hat : h.isAt [.taken, .reading] = true) : Tracked (next locale h .throwFileException) := by
  obtain ⟨c, hc, hstage⟩ := isAt_iff.mp hat
  have hreturned : c.stage ≠ .returned := by
    intro heq
    simp [heq] at hstage
  obtain ⟨hcleared, hleft, -⟩ := ht.left c hc
  have hb := ht.bytes_of_hashing hc hreturned
  have hq := ht.queued_nonneg
  have hrange := ht.range
  have hnew : int64 (h.totalBytesLeft - c.sizeLeft) = h.queuedBytes := by
    rw [int64_of_range (by omega) (by omega)]
    omega
  simp only [next, hc, hnew]
  exact ht.update hc rfl hcleared hleft (by simp) (by simp) (by omega)

theorem Tracked.finish (ht : Tracked h) (hat : h.isAt [.returned] = true) :
    Tracked (next locale h .finish) := by
  obtain ⟨c, hc, hstage⟩ := isAt_iff.mp hat
  rw [List.mem_singleton] at hstage
  have hdevices : Lib.CountMap.Counts (Lib.CountMap.drop h.devices c.wi.deviceId)
      (h.w.toList.map (·.deviceId)) := by
    have hd := ht.devices
    simp only [queuedDevices, hc, Option.toList_some, List.map_cons, List.map_nil,
      List.singleton_append] at hd
    exact hd.drop
  have hb : h.totalBytesLeft = h.queuedBytes := by
    rw [ht.bytes, unread, hc]
    simp [hstage]
  simp only [next, hc, Hasher.finish, removeDevice]
  by_cases hnil : h.w.toList = []
  · rw [if_pos hnil]
    refine ⟨hdevices, ?_, ht.sizes, by simp, by simp⟩
    simp [queuedBytes, unread, hnil]
  · rw [if_neg hnil]
    refine ⟨hdevices, ?_, ht.sizes, by simp, ht.range⟩
    simpa [queuedBytes, unread] using hb

theorem Tracked.next (ht : Tracked h) (ho : Allowed h o) (hu : Undisturbed h o) :
    Tracked (next locale h o) := by
  cases o with
  | hashFile fileName filePathLower size aDeviceId => exact ht.hashFile ho.1 hu
  | stopHashing aBaseDir => exact ht.eraseItems
  | clear => exact .clear hu
  | stop => exact { Tracked.clear hu with }
  | popFront => exact ht.popFront ho.1
  | openFile size => exact ht.openFile ho.1 hu.1 hu.2
  | readChunk n => exact ht.readChunk ho hu
  | endOfFile => exact ht.endOfFile ho hu
  | throwFileException => exact ht.throwFileException ho
  | finish => exact ht.finish ho
  | leaveQueue => exact { ht with }

/-! ## The counters over whole runs -/

/-- **The counters are right while nothing interferes with the item being hashed.** -/
theorem hasher_accounted
    (hr : Lib.Reaches ((system locale).restrict Undisturbed) Initial h) : Accounted h := by
  refine (Lib.Reaches.invariant (fun _ h => tracked_initial h) ?_ hr).accounted
  intro h o ht ho
  exact ht.next ho.1 ho.2

/-! A file that has grown since it was queued is hashed, and another one waits. -/

instance (h : Hasher) (o : Op) : Decidable (Allowed h o) := by
  cases o <;> simp only [Allowed] <;> infer_instance

instance (h : Hasher) (o : Op) : Decidable ((system locale).allowed h o) :=
  inferInstanceAs (Decidable (Allowed h o))

instance (h : Hasher) (o : Op) : Decidable (Undisturbed h o) := by
  cases o <;> simp only [Undisturbed] <;> infer_instance

def asciiLocale : Locale where
  towlower c := c
  convert s _ := s

theorem hasher_accounted_grown :
    let h := (system asciiLocale).run {} [.hashFile (str "/a") (str "/a") 5 1,
      .hashFile (str "/b") (str "/b") 7 1, .popFront, .openFile 6, .readChunk 6, .endOfFile,
        .finish]
    h.totalBytesLeft = 7 ∧ h.devices 1 = some 1 ∧ Accounted h := by
  intro h
  refine ⟨by decide +kernel, by decide +kernel, @hasher_accounted h asciiLocale ?_⟩
  exact Lib.Reaches.run (.start rfl) (by decide +kernel)

/-- The queue is thrown away while `/a` is hashed, `/b` is queued, and `/a` is finished. -/
theorem not_accounted_stopped :
    ¬ ∀ h, Lib.Reaches (system asciiLocale) Initial h → Accounted h := by
  intro hall
  have hacc := hall ((system asciiLocale).run {} [.hashFile (str "/a") (str "/a") 5 1, .popFront,
    .stop, .hashFile (str "/b") (str "/b") 7 1, .openFile 5, .readChunk 5, .finish])
    (Lib.Reaches.run (.start rfl) (by decide +kernel))
  exact absurd (hacc.devices 1) (by decide +kernel)

end Hasher
end HashManager
end Airdcpp
