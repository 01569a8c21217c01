import Airdcpp.Connection.Framing

/-!
# `Connection/Listeners` — a listener and the recorder

The framer says which events a stream gives when the listener only remembers them and answers the
lines as `react` says. Any other listener goes through the same events, as long as it gives the same
answers on the way (`Answers`): its state is then what the events have made of it (`after`), in
front of every round and after every read (`run_map`). What a listener does with a stream is thus a
question about the events of the recorder, which the framer knows.
-/

namespace Airdcpp
namespace BufferedSocket

variable {σ τ : Type}

/-- The same socket with another listener. -/
def Connection.map (f : σ → τ) (c : Connection σ) : Connection τ where
  socket := c.socket
  listener := f c.listener

def Reading.map (f : σ → τ) (r : Reading σ) : Reading τ where
  toConnection := r.toConnection.map f
  inbuf := r.inbuf
  total := r.total
  bufpos := r.bufpos
  left := r.left
  l := r.l

/-- What some events make of a listener. -/
def after (on : Listener σ) (w : σ) (es : List Event) : σ := es.foldl (fun w e => (on w e).1) w

/-- The listener answers each of the events as the recorder does. -/
def Answers (on : Listener σ) (w : σ) (react : List Str → Option Int) (es : List Event) : Prop :=
  ∀ p e, p ++ [e] <+: es → (on (after on w p) e).2 = (recorder react p e).2

variable {on : Listener σ} {w : σ} {react : List Str → Option Int}

theorem after_append (es fs : List Event) : after on w (es ++ fs) = after on (after on w es) fs :=
  List.foldl_append

theorem Answers.of_prefix {es fs : List Event} (h : Answers on w react fs) (hpre : es <+: fs) :
    Answers on w react es :=
  fun p e hp => h p e (hp.trans hpre)

theorem fire_map {c : Connection (List Event)} {e : Event}
    (h : Answers on w react (fire (recorder react) c e).listener) :
    fire on (c.map (after on w)) e = (fire (recorder react) c e).map (after on w) := by
  have hanswer := h c.listener e (List.prefix_refl _)
  rw [fire, fire]
  simp only [Connection.map, hanswer, recorder, after_append]
  rfl

theorem lineRound_map {r : Reading (List Event)} {l : Str}
    (h : Answers on w react (lineRound (recorder react) r l).listener) :
    lineRound on (r.map (after on w)) l = (lineRound (recorder react) r l).map (after on w) := by
  have hsep : (r.map (after on w)).socket.separator = r.socket.separator := rfl
  rw [lineRound, lineRound, hsep]
  cases hpos : l.idxOf? r.socket.separator with
  | none => rfl
  | some pos =>
    by_cases hlt : 0 < pos
    · have hfire : fire on (r.map (after on w)).toConnection (.line (l.take pos)) =
          (fire (recorder react) r.toConnection (.line (l.take pos))).map (after on w) := by
        apply fire_map
        rw [lineRound, hpos] at h
        simp only [if_pos hlt] at h
        split at h <;> exact h
      simp only [if_pos hlt, hfire]
      generalize fire (recorder react) r.toConnection (.line (l.take pos)) = c
      by_cases hmode : c.socket.mode = .line
      · simp only [Connection.map, Reading.map, hmode, ne_eq, not_true_eq_false, if_false]
        rfl
      · simp only [Connection.map, Reading.map, hmode, ne_eq, not_false_eq_true, if_true]
        rfl
    · simp only [if_neg hlt]
      by_cases hmode : r.socket.mode = .line
      · simp only [Connection.map, Reading.map, hmode, ne_eq, not_true_eq_false, if_false]
        rfl
      · simp only [Connection.map, Reading.map, hmode, ne_eq, not_false_eq_true, if_true]
        rfl

theorem prefix_fire (react : List Str → Option Int) (c : Connection (List Event)) (e : Event) :
    c.listener <+: (fire (recorder react) c e).listener :=
  List.prefix_append _ _

/-- The connection when `high` bytes of a block have been handed over. -/
def countBlock (on : Listener σ) (high : Int) (c : Connection σ) : Connection σ :=
  let c := { c with socket := { c.socket with dataBytes := c.socket.dataBytes - high } }
  if c.socket.dataBytes = 0 then
    fire on { c with socket := { c.socket with mode := .line } } .modeChange
  else c

theorem dataRound_block_of_ne {r : Reading σ} (on : Listener σ) (h : r.socket.dataBytes ≠ -1) :
    dataRound on r =
      let high := toInt32 (min r.socket.dataBytes r.left)
      { r with
        toConnection := countBlock on high
          (fire on r.toConnection (.data r.inbuf r.bufpos (toSizeT high)))
        bufpos := r.bufpos + high
        left := r.left - high } := by
  rw [dataRound, if_neg h]
  rfl

theorem countBlock_end {high : Int} {c : Connection σ} (h : c.socket.dataBytes - high = 0) :
    countBlock on high c = fire on
      { c with socket := { c.socket with dataBytes := c.socket.dataBytes - high, mode := .line } }
      .modeChange := if_pos h

theorem countBlock_of_ne {high : Int} {c : Connection σ} (h : c.socket.dataBytes - high ≠ 0) :
    countBlock on high c =
      { c with socket := { c.socket with dataBytes := c.socket.dataBytes - high } } := if_neg h

theorem prefix_countBlock (high : Int) (c : Connection (List Event)) :
    c.listener <+: (countBlock (recorder react) high c).listener := by
  by_cases hend : c.socket.dataBytes - high = 0
  · rw [countBlock_end hend]
    exact prefix_fire _ _ _
  · rw [countBlock_of_ne hend]

theorem countBlock_map {high : Int} {c : Connection (List Event)}
    (h : Answers on w react (countBlock (recorder react) high c).listener) :
    countBlock on high (c.map (after on w)) =
      (countBlock (recorder react) high c).map (after on w) := by
  by_cases hend : c.socket.dataBytes - high = 0
  · rw [countBlock_end hend] at h ⊢
    rw [@countBlock_end σ on high (c.map (after on w)) hend]
    exact fire_map h
  · rw [countBlock_of_ne hend, @countBlock_of_ne σ on high (c.map (after on w)) hend]
    rfl

theorem dataRound_map {r : Reading (List Event)}
    (h : Answers on w react (dataRound (recorder react) r).listener) :
    dataRound on (r.map (after on w)) = (dataRound (recorder react) r).map (after on w) := by
  have hbytes : (r.map (after on w)).socket.dataBytes = r.socket.dataBytes := rfl
  by_cases hrest : r.socket.dataBytes = -1
  · rw [dataRound, if_pos hrest] at h
    rw [dataRound, dataRound, hbytes, if_pos hrest, if_pos hrest]
    have hfire := @fire_map _ on w react r.toConnection (.data r.inbuf r.bufpos (toSizeT r.left)) h
    simp only [Reading.map, hfire]
    rfl
  · rw [dataRound_block_of_ne _ hrest] at h ⊢
    rw [dataRound_block_of_ne _ (by rwa [hbytes])]
    have hdata := fire_map (h.of_prefix (prefix_countBlock _ _))
    have hcount := countBlock_map h
    simp only [Reading.map] at hdata hcount ⊢
    simp only [Connection.map] at hdata hcount ⊢
    simp only [hdata, hcount]

/-- A round of the recorder only adds events. -/
theorem prefix_round {r r' : Reading (List Event)}
    (h : round (recorder react) r = some (.inr r')) : r.listener <+: r'.listener := by
  rw [round] at h
  cases hl : r.l with
  | some l =>
    rw [hl] at h
    cases h
    rw [lineRound]
    cases l.idxOf? r.socket.separator with
    | none => exact List.prefix_refl _
    | some pos =>
      by_cases hlt : 0 < pos
      · simp only [if_pos hlt]
        split <;> exact prefix_fire react _ _
      · simp only [if_neg hlt]
        split <;> exact List.prefix_refl _
  | none =>
    rw [hl] at h
    simp only at h
    split at h
    · cases hmode : r.socket.mode with
      | line =>
        rw [hmode] at h
        cases h
        exact List.prefix_refl _
      | data =>
        rw [hmode] at h
        cases h
        by_cases hrest : r.socket.dataBytes = -1
        · rw [dataRound, if_pos hrest]
          exact prefix_fire react _ _
        · rw [dataRound_block_of_ne _ hrest]
          exact (prefix_fire react _ _).trans (prefix_countBlock _ _)
    · cases h

theorem round_map {r r' : Reading (List Event)} (h : round (recorder react) r = some (.inr r'))
    (hanswers : Answers on w react r'.listener) :
    round on (r.map (after on w)) = some (.inr (r'.map (after on w))) := by
  have hmapped : (r.map (after on w)).l = r.l := rfl
  have hleft : (r.map (after on w)).left = r.left := rfl
  have hmode' : (r.map (after on w)).socket.mode = r.socket.mode := rfl
  rw [round] at h ⊢
  rw [hmapped, hleft, hmode']
  cases hl : r.l with
  | some l =>
    rw [hl] at h
    cases h
    simp only [lineRound_map hanswers]
  | none =>
    rw [hl] at h
    simp only at h ⊢
    split at h
    · rename_i hpos
      rw [if_pos hpos]
      cases hmode : r.socket.mode with
      | line =>
        rw [hmode] at h
        cases h
        rfl
      | data =>
        rw [hmode] at h
        cases h
        simp only [dataRound_map hanswers]
    · cases h

theorem round_map_return {r : Reading (List Event)} {c : Connection (List Event)}
    (h : round (recorder react) r = some (.inl c)) :
    round on (r.map (after on w)) = some (.inl (c.map (after on w))) := by
  have hmapped : (r.map (after on w)).l = r.l := rfl
  have hleft : (r.map (after on w)).left = r.left := rfl
  rw [round] at h ⊢
  rw [hmapped, hleft]
  cases hl : r.l with
  | some l =>
    rw [hl] at h
    cases h
  | none =>
    rw [hl] at h
    simp only at h ⊢
    split at h
    · cases hmode : r.socket.mode <;> rw [hmode] at h <;> cases h
    · rename_i hpos
      cases h
      rw [if_neg hpos]
      rfl

theorem listener_of_return {r : Reading (List Event)} {c : Connection (List Event)}
    (h : round (recorder react) r = some (.inl c)) : c.listener = r.listener := by
  rw [round] at h
  cases hl : r.l with
  | some l =>
    rw [hl] at h
    cases h
  | none =>
    rw [hl] at h
    simp only at h
    split at h
    · cases hmode : r.socket.mode <;> rw [hmode] at h <;> cases h
    · cases h
      rfl

theorem prefix_run {n : Nat} {r : Reading (List Event)} {c : Connection (List Event)}
    (h : Loop.run (round (recorder react)) n r = some c) : r.listener <+: c.listener := by
  refine Loop.Returns.induct (P := fun s => r.listener <+: s.listener)
    (Q := fun c => r.listener <+: c.listener) ?_ ?_ ⟨n, h⟩ (List.prefix_refl _)
  · intro s t hs hnext
    exact hs.trans (prefix_round hnext)
  · intro s c hs hreturn
    rw [listener_of_return hreturn]
    exact hs

/-- **A listener that answers as the recorder does goes where the recorder goes.** -/
theorem run_map {n : Nat} {r : Reading (List Event)} {c : Connection (List Event)}
    (h : Loop.run (round (recorder react)) n r = some c)
    (hanswers : Answers on w react c.listener) :
    Loop.run (round on) n (r.map (after on w)) = some (c.map (after on w)) := by
  induction n generalizing r with
  | zero => cases h
  | succ n ih =>
    cases hround : round (recorder react) r with
    | none =>
      rw [Loop.run_succ_of_none hround] at h
      cases h
    | some x =>
      cases x with
      | inl d =>
        rw [Loop.run_succ_of_return hround, Option.some.injEq] at h
        subst h
        exact Loop.run_succ_of_return (round_map_return hround)
      | inr r' =>
        rw [Loop.run_succ_of_next hround] at h
        rw [Loop.run_succ_of_next (round_map hround (hanswers.of_prefix (prefix_run h)))]
        exact ih h

end BufferedSocket
end Airdcpp
