import Airdcpp.Connection.ConnectionTokens

/-!
# `Connection/UniqueTokens` — every item has a registered token of its own

A generated token is new, and the token of an upload is added before its item is created. A PM
connection is different: when `FLAG_PM` is set before `on(INF)` looks at the token, the token is
presumed to be registered. `Presumed` is the condition that it is, for PM, and that no item has it.
-/

namespace Airdcpp
namespace ConnectionTokens

variable {s : Manager} {x : Answers} {i cqi : ConnectionQueueItem} {uc : UserConnection}
  {address : Nat} {type : ConnectionType} {token : Str} {user : UserPtr}
  {f : ConnectionQueueItem → ConnectionQueueItem}

/-! ## The condition -/

/-- The token and the user of a connection whose `INF` is accepted. -/
def infToken (uc : UserConnection) (cmd : AdcCommand) : Str :=
  if uc.incoming then (cmd.getParam (str "TO") 0).getD [] else uc.connectToken

def infUser (s : Manager) (uc : UserConnection) (cmd : AdcCommand) : Option UserPtr :=
  if uc.incoming then (s.expectedConnections (infToken uc cmd)).map Prod.fst else uc.user

/-- The token or the command says that an incoming connection is for PM. -/
def infPM (s : Manager) (uc : UserConnection) (cmd : AdcCommand) : Bool :=
  s.tokens.hasToken (infToken uc cmd) .pm || cmd.hasFlag (str "PM") 0

/-- `FLAG_PM` is set before the token is looked at. -/
def infFlagged (s : Manager) (uc : UserConnection) (cmd : AdcCommand) : Bool :=
  uc.pm || uc.incoming && infPM s uc cmd

/-- The `INF` is refused, or the connection is not for a new PM item. -/
def NoNewPM (s : Manager) (uc : UserConnection) (cmd : AdcCommand) (x : Answers) : Prop :=
  uc.state ≠ .INF ∨
  (uc.incoming = true ∧ ((∀ r ∈ s.expectedConnections (infToken uc cmd), r.2 = []) ∨
    x.found = false ∨ (infPM s uc cmd = true ∧ x.tls = false))) ∨
  x.checkKeyprint = false ∨
  (∃ i ∈ s.items .download, i.token = infToken uc cmd) ∨
  infToken uc cmd ∈ s.removedDownloadTokens ∨
  uc.download = true ∨
  (∃ i ∈ s.items .pm, some i.user = infUser s uc cmd)

/-- What `on(INF)` and `putCQI` presume. An empty token is replaced by a generated one. -/
def Presumed (s : Manager) : Op → Prop
  | .inf address cmd x =>
    let uc := s.connections address
    infFlagged s uc cmd = true → NoNewPM s uc cmd x ∨ infToken uc cmd = [] ∨
      (s.tokens (infToken uc cmd) = some .pm ∧ ∀ i ∈ s.cqis, i.token ≠ infToken uc cmd)
  | .failed address failDownload =>
    let uc := s.connections address
    uc.associated = false ∨ (uc.download && failDownload) = true ∨
      ∀ type ∈ toConnectionType uc, findCQI s uc type ≠ none
  | _ => True

instance (s : Manager) (uc : UserConnection) (cmd : AdcCommand) (x : Answers) :
    Decidable (NoNewPM s uc cmd x) := inferInstanceAs (Decidable (_ ∨ _))

instance (s : Manager) : (o : Op) → Decidable (Presumed s o)
  | .inf .. => inferInstanceAs (Decidable (_ → _ ∨ _ ∨ _ ∧ _))
  | .failed .. => inferInstanceAs (Decidable (_ ∨ _ ∨ _))
  | .getDownload .. | .putDownload .. | .setState .. | .startCC .. | .addBundle .. =>
    .isTrue trivial
  | .removeBundle .. | .adcExpect .. | .adcConnect .. | .connection .. | .key .. | .expire .. =>
    .isTrue trivial

/-! ## The invariant -/

structure Inv (s : Manager) : Prop where
  registered : ∀ i ∈ s.cqis, s.tokens i.token = some i.connType
  distinct : (s.cqis.map (·.token)).Nodup
  addresses : (s.cqis.map (·.address)).Nodup
  fresh : ∀ i ∈ s.cqis, i.address < s.nextAddress
  bundles : ∀ t ∈ s.bundles, s.tokens t = some .download ∧ ∀ i ∈ s.cqis, i.token ≠ t
  bundlesNodup : s.bundles.Nodup

/-- Only the items, the tokens and the bundles matter. -/
theorem Inv.congr {s' : Manager} (h : Inv s) (htokens : s'.tokens = s.tokens)
    (hcqis : s'.cqis = s.cqis) (hnext : s'.nextAddress = s.nextAddress)
    (hbundles : s'.bundles = s.bundles) : Inv s' := by
  constructor
  · rw [htokens, hcqis]
    exact h.registered
  · rw [hcqis]
    exact h.distinct
  · rw [hcqis]
    exact h.addresses
  · rw [hcqis, hnext]
    exact h.fresh
  · rw [htokens, hcqis, hbundles]
    exact h.bundles
  · rw [hbundles]
    exact h.bundlesNodup

theorem Inv.setConnection (h : Inv s) : Inv (s.setConnection address uc) :=
  h.congr rfl rfl rfl rfl

theorem mem_items : i ∈ s.items type ↔ i ∈ s.cqis ∧ i.connType = type := by
  rw [Manager.items, List.mem_filter, beq_iff_eq]

/-- A token that is not registered is no item's and no bundle's. -/
theorem Inv.notMem_of_none (h : Inv s) (htoken : s.tokens token = none) :
    (∀ i ∈ s.cqis, i.token ≠ token) ∧ token ∉ s.bundles := by
  constructor
  · rintro i hi rfl
    exact absurd ((h.registered i hi).symm.trans htoken) (by simp)
  · intro ht
    exact absurd ((h.bundles token ht).1.symm.trans htoken) (by simp)

/-- One token more. -/
theorem Inv.emplace (h : Inv s) (htoken : s.tokens token = none) :
    Inv { s with tokens := s.tokens.emplace token type } := by
  obtain ⟨hitems, hbundles⟩ := h.notMem_of_none htoken
  have hkept : ∀ t, t ≠ token → s.tokens.emplace token type t = s.tokens t := by
    intro t ht
    rw [TokenManager.emplace, htoken]
    exact Function.update_of_ne ht ..
  refine ⟨?_, h.distinct, h.addresses, h.fresh, ?_, h.bundlesNodup⟩
  · intro i hi
    exact (hkept _ (hitems i hi)).trans (h.registered i hi)
  · intro t ht
    have hne : t ≠ token := by
      rintro rfl
      exact hbundles ht
    exact ⟨(hkept t hne).trans (h.bundles t ht).1, (h.bundles t ht).2⟩

/-- The empty token is not a generated one. -/
theorem isNew_emplace_nil (h : s.tokens.IsNew token) (hnil : s.tokens [] = none) :
    (s.tokens.emplace [] type).IsNew token := by
  refine ⟨?_, h.2⟩
  rw [TokenManager.emplace, hnil]
  exact (Function.update_of_ne h.2 ..).trans h.1

theorem emplace_self (htoken : s.tokens token = none) :
    s.tokens.emplace token type token = some type := by
  rw [TokenManager.emplace, htoken]
  exact Function.update_self ..

/-! ## Items that come and go -/

/-- An item is created for a token that is registered for it. -/
theorem Inv.append {j : ConnectionQueueItem} (h : Inv s) (haddress : j.address = s.nextAddress)
    (hregistered : s.tokens j.token = some j.connType) (hitems : ∀ i ∈ s.cqis, i.token ≠ j.token)
    (hbundles : j.token ∉ s.bundles) :
    Inv { s with cqis := s.cqis ++ [j], nextAddress := s.nextAddress + 1 } := by
  refine ⟨?_, ?_, ?_, ?_, ?_, h.bundlesNodup⟩
  · intro i hi
    rcases List.mem_append.mp hi with hi | hi
    · exact h.registered i hi
    · rw [List.mem_singleton.mp hi]
      exact hregistered
  · rw [List.map_append, List.nodup_append]
    refine ⟨h.distinct, List.nodup_singleton _, ?_⟩
    intro t ht t' ht'
    obtain ⟨i, hi, rfl⟩ := List.mem_map.mp ht
    rw [List.mem_singleton.mp ht']
    exact hitems i hi
  · rw [List.map_append, List.nodup_append]
    refine ⟨h.addresses, List.nodup_singleton _, ?_⟩
    intro a ha a' ha'
    obtain ⟨i, hi, rfl⟩ := List.mem_map.mp ha
    have hnew : a' = s.nextAddress := (List.mem_singleton.mp ha').trans haddress
    rw [hnew]
    exact (h.fresh i hi).ne
  · intro i hi
    rcases List.mem_append.mp hi with hi | hi
    · exact Nat.lt_succ_of_lt (h.fresh i hi)
    · rw [List.mem_singleton.mp hi, haddress]
      exact Nat.lt_succ_self _
  · intro t ht
    refine ⟨(h.bundles t ht).1, ?_⟩
    intro i hi
    rcases List.mem_append.mp hi with hi | hi
    · exact (h.bundles t ht).2 i hi
    · rw [List.mem_singleton.mp hi]
      rintro rfl
      exact hbundles ht

/-- What is written to an item after its creation is not what it is known by. -/
structure Keeps (f : ConnectionQueueItem → ConnectionQueueItem) : Prop where
  address : ∀ i, (f i).address = i.address
  token : ∀ i, (f i).token = i.token
  connType : ∀ i, (f i).connType = i.connType

theorem Inv.getCQI_given (h : Inv s) (hf : Keeps f) (hne : token ≠ [])
    (hregistered : s.tokens token = some type) (hitems : ∀ i ∈ s.cqis, i.token ≠ token)
    (hbundles : token ∉ s.bundles) : Inv (s.getCQI user type token x f) := by
  have happend :=
    h.append (j := f ⟨s.nextAddress, user, type, token, .any, 0, 0, .waiting, 0, false,
    false⟩) (hf.address _) (by rw [hf.token, hf.connType]; exact hregistered)
    (by rw [hf.token]; exact hitems) (by rw [hf.token]; exact hbundles)
  refine happend.congr ?_ ?_ rfl rfl
  · exact if_pos hne
  · simp only [Manager.getCQI, if_pos hne]

theorem Inv.getCQI_new (h : Inv s) (hf : Keeps f) (hx : s.tokens.IsNew x.token) :
    Inv (s.getCQI user type [] x f) := by
  obtain ⟨hitems, hbundles⟩ := h.notMem_of_none hx.1
  have hemplaced : Inv { s with tokens := s.tokens.emplace x.token type } := h.emplace hx.1
  have happend :=
    hemplaced.append (j := f ⟨s.nextAddress, user, type, x.token, .any, 0, 0, .waiting,
    0, false, false⟩) (hf.address _) (by rw [hf.token, hf.connType]; exact emplace_self hx.1)
    (by rw [hf.token]; exact hitems) (by rw [hf.token]; exact hbundles)
  refine happend.congr ?_ ?_ rfl rfl
  · simp only [Manager.getCQI, ne_eq, not_true_eq_false, if_false]
  · simp only [Manager.getCQI, ne_eq, not_true_eq_false, if_false]

theorem Inv.modify (h : Inv s) (hf : Keeps f) :
    Inv { s with cqis := Lib.Keyed.modify ConnectionQueueItem.address address f s.cqis } := by
  have hmem : ∀ j ∈ Lib.Keyed.modify ConnectionQueueItem.address address f s.cqis,
      ∃ i ∈ s.cqis, j.token = i.token ∧ j.connType = i.connType ∧ j.address = i.address := by
    intro j hj
    obtain ⟨i, hi, rfl⟩ := List.mem_map.mp hj
    refine ⟨i, hi, ?_⟩
    split
    · exact ⟨hf.token i, hf.connType i, hf.address i⟩
    · exact ⟨rfl, rfl, rfl⟩
  refine ⟨?_, ?_, ?_, ?_, ?_, h.bundlesNodup⟩
  · intro j hj
    obtain ⟨i, hi, htoken, htype, -⟩ := hmem j hj
    rw [htoken, htype]
    exact h.registered i hi
  · have hmap : (Lib.Keyed.modify ConnectionQueueItem.address address f s.cqis).map (·.token) =
        s.cqis.map (·.token) := by
      rw [Lib.Keyed.modify, List.map_map]
      apply List.map_congr_left
      intro i _
      simp only [Function.comp]
      split
      · exact hf.token i
      · rfl
    rw [hmap]
    exact h.distinct
  · have hmap : (Lib.Keyed.modify ConnectionQueueItem.address address f s.cqis).map
        ConnectionQueueItem.address = s.cqis.map ConnectionQueueItem.address :=
      Lib.Keyed.map_key_modify fun i _ => hf.address i
    exact hmap ▸ h.addresses
  · intro j hj
    obtain ⟨i, hi, -, -, haddress⟩ := hmem j hj
    rw [haddress]
    exact h.fresh i hi
  · intro t ht
    refine ⟨(h.bundles t ht).1, ?_⟩
    intro j hj
    obtain ⟨i, hi, htoken, -, -⟩ := hmem j hj
    rw [htoken]
    exact (h.bundles t ht).2 i hi

theorem Inv.token_ne (h : Inv s) (hi : i ∈ s.cqis) {j : ConnectionQueueItem}
    (hj : j ∈ (s.putCQIUnsafe i).cqis) : j ∈ s.cqis ∧ j.token ≠ i.token := by
  obtain ⟨hj, hne⟩ := Lib.Keyed.mem_remove.mp hj
  refine ⟨hj, ?_⟩
  intro htoken
  exact hne (congrArg _ (List.inj_on_of_nodup_map h.distinct hj hi htoken))

theorem Inv.putCQIUnsafe (h : Inv s) (hi : i ∈ s.cqis) : Inv (s.putCQIUnsafe i) := by
  refine ⟨?_, ?_, Lib.Keyed.nodup_remove h.addresses, ?_, ?_, h.bundlesNodup⟩
  · intro j hj
    obtain ⟨hj, hne⟩ := h.token_ne hi hj
    exact (Function.update_of_ne hne ..).trans (h.registered j hj)
  · exact h.distinct.sublist (List.filter_sublist.map _)
  · intro j hj
    exact h.fresh j (h.token_ne hi hj).1
  · intro t ht
    obtain ⟨hregistered, hitems⟩ := h.bundles t ht
    refine ⟨(Function.update_of_ne (hitems i hi).symm ..).trans hregistered, ?_⟩
    intro j hj
    exact hitems j (h.token_ne hi hj).1

/-! ## The handshakes -/

theorem keeps_active : Keeps fun cqi => { cqi with state := .active } :=
  ⟨fun _ => rfl, fun _ => rfl, fun _ => rfl⟩

/-- The token of a new PM item is generated, or registered and free. -/
theorem Inv.addPMConnection (h : Inv s) (hx : uc.connectToken = [] → s.tokens.IsNew x.token)
    (htoken : (∃ i ∈ s.items .pm, some i.user = uc.user) ∨ uc.connectToken = [] ∨
      (s.tokens uc.connectToken = some .pm ∧ ∀ i ∈ s.cqis, i.token ≠ uc.connectToken)) :
    Inv (s.addPMConnection address uc x) := by
  unfold Manager.addPMConnection
  split
  · exact h
  · rename_i user huser
    split
    · exact h.setConnection
    · rename_i hfree
      apply Inv.setConnection
      by_cases hempty : uc.connectToken = []
      · rw [hempty]
        exact h.getCQI_new keeps_active (hx hempty)
      · rcases htoken with ⟨i, hi, hiuser⟩ | hnil | ⟨hregistered, hitems⟩
        · refine absurd (List.any_eq_true.mpr ⟨i, hi, ?_⟩) hfree
          rw [beq_iff_eq]
          exact Option.some.inj (hiuser.trans huser)
        · exact absurd hnil hempty
        · refine h.getCQI_given keeps_active hempty hregistered hitems ?_
          intro hbundle
          have hdownload := (h.bundles _ hbundle).1
          rw [hregistered] at hdownload
          exact absurd hdownload (by simp)

theorem Inv.addDownloadConnection (h : Inv s) : Inv (s.addDownloadConnection address uc) := by
  unfold Manager.addDownloadConnection
  split
  · exact h.setConnection
  · split
    · exact h.setConnection
    · apply Inv.setConnection
      apply h.modify
      constructor
      all_goals
        intro i
        split
        · rfl
        · rfl

theorem Inv.addUploadConnection (h : Inv s)
    (hx : uc.connectToken = [] → s.tokens.IsNew x.token) :
    Inv (s.addUploadConnection address uc x) := by
  unfold Manager.addUploadConnection
  split
  · exact h
  · split
    · exact h.setConnection
    · extract_lets added
      split
      · rename_i hadded
        have hnone : s.tokens uc.connectToken = none := Option.isNone_iff_eq_none.mp hadded
        obtain ⟨hitems, hbundles⟩ := h.notMem_of_none hnone
        have hemplaced : Inv { s with tokens := s.tokens.emplace uc.connectToken .upload } :=
          h.emplace hnone
        apply Inv.setConnection
        by_cases hempty : uc.connectToken = []
        · have hnew := hx hempty
          rw [hempty] at hnone
          simp only [added, TokenManager.addToken, hempty]
          exact (h.emplace hnone).getCQI_new keeps_active (isNew_emplace_nil hnew hnone)
        · exact hemplaced.getCQI_given keeps_active hempty (emplace_self hnone) hitems hbundles
      · exact h.setConnection

/-- What an `INF` makes of a connection, where it is accepted. -/
structure Accepted (s : Manager) (uc : UserConnection) (cmd : AdcCommand) (uc' : UserConnection) :
    Prop where
  token : uc'.connectToken = infToken uc cmd
  user : uc'.user = infUser s uc cmd
  pm : uc'.pm = infFlagged s uc cmd
  download : uc'.download = uc.download

theorem infIncoming_accepted {cmd : AdcCommand} (hin : uc.incoming = true)
    (hacc : (infIncoming s uc cmd x).2.2 = true) :
    Accepted s uc cmd (infIncoming s uc cmd x).2.1 ∧
      ¬ ((∀ r ∈ s.expectedConnections (infToken uc cmd), r.2 = []) ∨ x.found = false ∨
        (infPM s uc cmd = true ∧ x.tls = false)) := by
  unfold infIncoming at hacc ⊢
  cases hTO : cmd.getParam (str "TO") 0 with
  | none =>
    rw [hTO] at hacc
    exact absurd hacc (by simp)
  | some token =>
    have htoken : infToken uc cmd = token := by
      rw [infToken, if_pos hin, hTO]
      rfl
    simp only [hTO] at hacc ⊢
    cases hexpected : s.expectedConnections token with
    | none =>
      rw [hexpected] at hacc
      exact absurd hacc (by simp)
    | some r =>
      obtain ⟨cid, hubUrl⟩ := r
      have huser : infUser s uc cmd = some cid := by
        rw [infUser, if_pos hin, htoken, hexpected]
        rfl
      have hflagged : infFlagged s uc cmd = (uc.pm || infPM s uc cmd) := by
        rw [infFlagged, hin, Bool.true_and]
      have hpm : (s.tokens.hasToken token .pm || cmd.hasFlag (str "PM") 0) = infPM s uc cmd := by
        rw [infPM, htoken]
      rw [htoken, hexpected]
      simp only [hexpected, hpm] at hacc ⊢
      split at hacc
      · exact absurd hacc (by simp)
      · rename_i hhub
        rw [if_neg hhub]
        split at hacc
        · exact absurd hacc (by simp)
        · rename_i hfound
          rw [if_neg hfound]
          have hhub' : ¬ ∀ r ∈ some (cid, hubUrl), r.2 = [] := fun hall => hhub (hall _ rfl)
          split at hacc
          · rename_i hflag
            rw [if_pos hflag]
            refine ⟨⟨htoken.symm, huser.symm, ?_, rfl⟩, ?_⟩
            · rw [hflagged, hflag, Bool.or_true]
            · rintro (hall | hnot | ⟨-, htls⟩)
              · exact hhub' hall
              · exact hfound (by simp [hnot])
              · exact absurd hacc (by simp [htls])
          · rename_i hflag
            rw [if_neg hflag]
            refine ⟨⟨htoken.symm, huser.symm, ?_, rfl⟩, ?_⟩
            · rw [hflagged, Bool.eq_false_of_not_eq_true hflag, Bool.or_false]
            · rintro (hall | hnot | ⟨hset, -⟩)
              · exact hhub' hall
              · exact hfound (by simp [hnot])
              · exact hflag hset

theorem infIncoming_same {cmd : AdcCommand} :
    (infIncoming s uc cmd x).1.tokens = s.tokens ∧ (infIncoming s uc cmd x).1.cqis = s.cqis ∧
      (infIncoming s uc cmd x).1.nextAddress = s.nextAddress ∧
      (infIncoming s uc cmd x).1.bundles = s.bundles ∧
      (infIncoming s uc cmd x).1.removedDownloadTokens = s.removedDownloadTokens := by
  unfold infIncoming
  split
  · exact ⟨rfl, rfl, rfl, rfl, rfl⟩
  · extract_lets uc' cs
    split
    · exact ⟨rfl, rfl, rfl, rfl, rfl⟩
    · split
      · exact ⟨rfl, rfl, rfl, rfl, rfl⟩
      · split
        · exact ⟨rfl, rfl, rfl, rfl, rfl⟩
        · split
          · exact ⟨rfl, rfl, rfl, rfl, rfl⟩
          · exact ⟨rfl, rfl, rfl, rfl, rfl⟩

/-- A connection is kept from a new PM item, or its token is one that a PM item may have. -/
theorem Inv.infKnown {cmd : AdcCommand} (h : Inv s) (hx : s.tokens.IsNew x.token)
    (hpm : uc.pm = true → (∃ i ∈ s.items .download, i.token = uc.connectToken) ∨
      uc.connectToken ∈ s.removedDownloadTokens ∨ uc.download = true ∨
      (∃ i ∈ s.items .pm, some i.user = uc.user) ∨ uc.connectToken = [] ∨
      (s.tokens uc.connectToken = some .pm ∧ ∀ i ∈ s.cqis, i.token ≠ uc.connectToken)) :
    Inv (s.infKnown address uc cmd x) := by
  unfold Manager.infKnown
  split
  · apply Inv.addDownloadConnection
    exact h.modify ⟨fun _ => rfl, fun _ => rfl, fun _ => rfl⟩
  · rename_i hnone
    split
    · exact h.setConnection
    · rename_i hremoved
      split
      · exact h.addDownloadConnection
      · rename_i hdownload
        split
        · rename_i hflag
          apply h.addPMConnection fun _ => hx
          rcases hpm hflag with ⟨i, hi, hitoken⟩ | hrem | hdown | hrest
          · have hnot := List.find?_eq_none.mp hnone i hi
            exact absurd hitoken (by simpa using hnot)
          · exact absurd hrem hremoved
          · exact absurd hdown hdownload
          · exact hrest
        · split
          · extract_lets added
            split
            · rename_i hadded
              have hfree : s.tokens uc.connectToken = none := Option.isNone_iff_eq_none.mp hadded
              obtain ⟨hitems, -⟩ := h.notMem_of_none hfree
              refine (h.emplace hfree).addPMConnection ?_
                (.inr (.inr ⟨emplace_self hfree, hitems⟩))
              intro hempty
              simp only at hempty
              rw [hempty] at hfree ⊢
              exact isNew_emplace_nil hx hfree
            · exact h.setConnection
          · exact h.addUploadConnection fun _ => hx

theorem Inv.inf {cmd : AdcCommand} (h : Inv s) (hx : s.tokens.IsNew x.token)
    (hpresumed : Presumed s (.inf address cmd x)) : Inv (s.inf address cmd x) := by
  unfold Manager.inf
  extract_lets uc known
  split
  · exact h
  · rename_i hstate
    have hsame : known.1.tokens = s.tokens ∧ known.1.cqis = s.cqis ∧
        known.1.nextAddress = s.nextAddress ∧ known.1.bundles = s.bundles ∧
        known.1.removedDownloadTokens = s.removedDownloadTokens := by
      simp only [known]
      split
      · exact infIncoming_same
      · exact ⟨rfl, rfl, rfl, rfl, rfl⟩
    have hknown := h.congr hsame.1 hsame.2.1 hsame.2.2.1 hsame.2.2.2.1
    split
    · rename_i haccepted
      rw [Bool.and_eq_true] at haccepted
      have hacc : Accepted s uc cmd known.2.1 ∧ ¬ (uc.incoming = true ∧
          ((∀ r ∈ s.expectedConnections (infToken uc cmd), r.2 = []) ∨ x.found = false ∨
            (infPM s uc cmd = true ∧ x.tls = false))) := by
        have hknownAcc := haccepted.1
        simp only [known] at hknownAcc ⊢
        split
        · rename_i hin
          rw [if_pos hin] at hknownAcc
          obtain ⟨hacc, hnot⟩ := infIncoming_accepted hin hknownAcc
          exact ⟨hacc, fun hboth => hnot hboth.2⟩
        · rename_i hin
          have hout : uc.incoming = false := Bool.eq_false_of_not_eq_true hin
          refine ⟨⟨?_, ?_, ?_, rfl⟩, fun hboth => hin hboth.1⟩
          · rw [infToken, if_neg hin]
          · rw [infUser, if_neg hin]
          · rw [infFlagged, hout, Bool.false_and, Bool.or_false]
      obtain ⟨hacc, hnot⟩ := hacc
      refine hknown.infKnown (by rw [hsame.1]; exact hx) ?_
      intro hpm
      rw [Manager.items, Manager.items, hsame.1, hsame.2.1, hsame.2.2.2.2, hacc.token, hacc.user,
        hacc.download]
      rcases hpresumed (hacc.pm ▸ hpm) with hno | hrest
      · rcases hno with hst | href | hkey | hdl | hrem | hdown | hitem
        · exact absurd hst hstate
        · exact absurd href hnot
        · exact absurd haccepted.2 (by simp [hkey])
        · exact .inl hdl
        · exact .inr (.inl hrem)
        · exact .inr (.inr (.inl hdown))
        · exact .inr (.inr (.inr (.inl hitem)))
      · exact .inr (.inr (.inr (.inr hrest)))
    · exact hknown.setConnection

theorem Inv.key (h : Inv s) (hx : x.token ≠ []) : Inv (s.key address x) := by
  unfold Manager.key
  extract_lets uc
  split
  · exact h
  · split
    · exact h.addDownloadConnection
    · exact h.addUploadConnection fun hempty => absurd hempty hx

theorem Inv.failed {keep : Bool} (h : Inv s) : Inv (s.failed address keep) := by
  unfold Manager.failed
  extract_lets uc
  split
  · split
    · exact h.setConnection
    · apply Inv.setConnection
      unfold Manager.putCQI
      split
      · exact h
      · split
        · exact h
        · rename_i cqi hfound
          apply h.putCQIUnsafe
          unfold findCQI at hfound
          split at hfound
          · exact (mem_items.mp (List.mem_of_find?_eq_some hfound)).1
          · exact (mem_items.mp (List.mem_of_find?_eq_some hfound)).1
  · exact h.setConnection

theorem Inv.next {o : Op} (h : Inv s) (ho : Allowed s o) (hpresumed : Presumed s o) :
    Inv (next s o) := by
  cases o with
  | getDownload aUser x => exact h.getCQI_new ⟨fun _ => rfl, fun _ => rfl, fun _ => rfl⟩ ho
  | putDownload address =>
    simp only [ConnectionTokens.next]
    split
    · exact h
    · rename_i cqi hfound
      exact h.putCQIUnsafe (mem_items.mp (List.mem_of_find?_eq_some hfound)).1
  | setState address state => exact h.modify ⟨fun _ => rfl, fun _ => rfl, fun _ => rfl⟩
  | startCC token => exact h.emplace ho.1
  | addBundle token =>
    simp only [ConnectionTokens.next]
    split
    · rename_i hadded
      have hfree : s.tokens token = none := Option.isNone_iff_eq_none.mp hadded
      obtain ⟨hitems, hbundles⟩ := h.notMem_of_none hfree
      have hemplaced : Inv { s with tokens := s.tokens.emplace token .download } :=
        h.emplace hfree
      refine ⟨hemplaced.registered, h.distinct, h.addresses, h.fresh, ?_,
        List.nodup_cons.mpr ⟨hbundles, h.bundlesNodup⟩⟩
      intro t ht
      rcases List.mem_cons.mp ht with rfl | ht
      · exact ⟨emplace_self hfree, hitems⟩
      · exact hemplaced.bundles t ht
    · exact h
  | removeBundle token =>
    have hitems := (h.bundles token ho).2
    refine ⟨?_, h.distinct, h.addresses, h.fresh, ?_, h.bundlesNodup.erase _⟩
    · intro i hi
      exact (Function.update_of_ne (hitems i hi) ..).trans (h.registered i hi)
    · intro t ht
      obtain ⟨hne, ht⟩ := h.bundlesNodup.mem_erase_iff.mp ht
      exact ⟨(Function.update_of_ne hne ..).trans (h.bundles t ht).1, (h.bundles t ht).2⟩
  | adcExpect aToken aCID aHubUrl =>
    simp only [ConnectionTokens.next]
    split
    · exact h
    · exact h.congr rfl rfl rfl rfl
  | adcConnect address aUser aToken => exact h.setConnection
  | connection address uc => exact h.setConnection
  | inf address cmd x => exact h.inf ho hpresumed
  | key address x => exact h.key ho
  | failed address failDownload => exact h.failed
  | expire aToken => exact h.congr rfl rfl rfl rfl

/-! ## Runs -/

/-- What is promised of the tokens: an item's token is registered with the item's type, no two items
    share one, and the removal of an item leaves the others theirs. -/
structure Unique (s : Manager) : Prop where
  registered : ∀ i ∈ s.cqis, s.tokens i.token = some i.connType
  distinct : s.cqis.Pairwise fun i j => i.token ≠ j.token
  kept : ∀ i ∈ s.cqis, ∀ j ∈ (s.putCQIUnsafe i).cqis,
    (s.putCQIUnsafe i).tokens j.token = some j.connType

theorem Inv.unique (h : Inv s) : Unique s where
  registered := h.registered
  distinct := List.pairwise_map.mp h.distinct
  kept _ hi := (h.putCQIUnsafe hi).registered

/-- **Tokens are unique and registered** in every run in which the token of a new PM item is one
    that was registered for it, and `putCQI` has an item to remove. -/
theorem tokens_unique {s : Manager} (h : Lib.Reaches (system.restrict Presumed) Initial s) :
    Unique s := by
  have hinv : Inv s := by
    refine @Lib.Reaches.invariant _ _ _ _ Inv ?_ ?_ s h
    · intro s hs
      subst hs
      exact ⟨by simp, List.nodup_nil, List.nodup_nil, by simp, by simp, List.nodup_nil⟩
    · intro s o hs ho
      exact hs.next ho.1 ho.2
  exact hinv.unique

/-- A download item, an incoming upload connection that ends, and a chat with the same user. -/
theorem tokens_unique_chat :
    let u : UserPtr := Vector.replicate 24 1
    let command : AdcCommand := { AdcCommand.header AdcCommand.TYPE_CLIENT 0 0 0 with
      parameters := [str "TOup"] }
    let s := system.run {} [.getDownload u { token := str "1" },
      .adcExpect (str "up") u (str "adc://hub"), .connection 0 { state := .INF, incoming := true },
      .inf 0 command { token := str "2" }, .startCC (str "3"), .adcConnect 1 u (str "3"),
      .connection 1 { state := .INF, connectToken := str "3", user := some u, pm := true },
      .inf 1 command { token := str "4" }, .failed 0 false]
    s.cqis.map (fun i => (i.connType, i.token)) = [(.download, str "1"), (.pm, str "3")] ∧
      Unique s := by
  intro u command s
  refine ⟨by decide +kernel, tokens_unique ?_⟩
  exact Lib.Reaches.run (.start rfl) (by decide +kernel)

/-- A user behind a firewall starts a chat: his client asks for a connection with a token of his
    own, connects and sends `PM1`. The token is not known here, and the new item has it. -/
theorem not_unique_pm : ¬ ∀ s, Lib.Reaches system Initial s → Unique s := by
  intro h
  let u : UserPtr := Vector.replicate 24 1
  have hunique := h (system.run {} [.adcExpect (str "7") u (str "adc://hub"),
    .connection 0 { state := .INF, incoming := true },
    .inf 0 { AdcCommand.header AdcCommand.TYPE_CLIENT 0 0 0 with
      parameters := [str "TO7", str "PM1"] } { token := str "2" }])
    (Lib.Reaches.run (.start rfl) (by decide +kernel))
  exact absurd hunique.registered (by decide +kernel)

end ConnectionTokens
end Airdcpp
