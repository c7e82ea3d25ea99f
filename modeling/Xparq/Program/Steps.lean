import Xparq.Program.Invocation
import Xparq.Program.Settled

/-!
# What an invocation does, step by step

`Engine.Step` lists the transitions of the engine: the meters and the account cache move, a
program is entered, a program's coins move, a program's asset call is applied, a state slot or
a storage key of a program is written. Every transition names a program that the engine has
entered. `call_runs` says that a successful `Engine.call` is a sequence of such steps, and
everything that holds of whole invocations is proved from the steps.

The meters bound what an invocation can leave to be undone (`Metered`): a program is entered at
most `maxCalls` times, and every storage write follows an action of its own. The second part is
a property of the frames, not of the engine, and comes from `interpret_free`.
-/

namespace Xparq

open Machine Outcome OrderedMap Selection List

namespace Engine

variable {e e' e'' : Engine}

/-- The coins consumed and created so far. -/
def notes (e : Engine) : NetLog CoinShare CoinUtxo := ⟨e.consumed, e.created⟩

def withNotes (e : Engine) (log : NetLog CoinShare CoinUtxo) : Engine :=
  { e with consumed := log.removed, created := log.added }

/-- Only the fuel and the account cache differ. -/
def Cached (e e' : Engine) : Prop :=
  ∃ fuel accountsReady coins assets, e' = { e with fuel, accountsReady, coins, assets }

theorem Cached.trans (h : Cached e e') (h' : Cached e' e'') : Cached e e'' := by
  obtain ⟨_, _, _, _, rfl⟩ := h
  obtain ⟨_, _, _, _, rfl⟩ := h'
  exact ⟨_, _, _, _, rfl⟩

/-- Only the account cache differs. -/
def Refilled (e e' : Engine) : Prop :=
  ∃ accountsReady coins assets, e' = { e with accountsReady, coins, assets }

theorem Refilled.refl (e : Engine) : Refilled e e := ⟨_, _, _, rfl⟩

theorem Refilled.trans (h : Refilled e e') (h' : Refilled e' e'') : Refilled e e'' := by
  obtain ⟨_, _, _, rfl⟩ := h
  obtain ⟨_, _, _, rfl⟩ := h'
  exact ⟨_, _, _, rfl⟩

theorem Refilled.cached (h : Refilled e e') : Cached e e' := by
  obtain ⟨_, _, _, rfl⟩ := h
  exact ⟨_, _, _, _, rfl⟩

/-- Only the fuel differs, and there is not more of it. -/
def Charged (e e' : Engine) : Prop := ∃ fuel, fuel ≤ e.fuel ∧ e' = { e with fuel }

theorem Charged.refl (e : Engine) : Charged e e := ⟨_, le_refl _, rfl⟩

theorem Charged.cached (h : Charged e e') : Cached e e' := by
  obtain ⟨_, _, rfl⟩ := h
  exact ⟨_, _, _, _, rfl⟩

section
variable [Crypto]

inductive Step (ctx : CallContext) : Engine → Engine → Prop
  | cached {e e' : Engine} (h : Cached e e') : Step ctx e e'
  | action {e : Engine} (hactions : e.actions + 1 ≤ maxActions) :
      Step ctx e { e with actions := e.actions + 1 }
  | enter {e : Engine} {id : ProgramId} {record : ProgramRecord} (hcalls : e.calls < maxCalls)
      (hget : e.state.programs.programs.get? id = some record) :
      Step ctx e { e with
        calls := e.calls + 1, active := id :: e.active, entered := e.entered ++ [id] }
  | leave {e : Engine} : Step ctx e { e with active := e.active.tail }
  | coin {e : Engine} {id : ProgramId} {legacyRoot : Bool} {coins : List (CoinShare × CoinUtxo)}
      {outputs : List (Owner × Zeno)} {utxos : UtxoSet} {origin : Hash} (hid : id ∈ e.entered)
      (horigin : origin = settlementOrigin id (effectCommitment ctx legacyRoot (e.actions + 1)))
      (hmove : CoinMove id origin coins outputs e.state.utxos utxos)
      (hactions : e.actions + 1 ≤ maxActions) (hroot : legacyRoot = true → e.issued = []) :
      Step ctx e { e.withNotes (((outputCoins origin 0 outputs).map Prod.fst).foldl NetLog.add
          (coins.foldl NetLog.remove e.notes)) with
        actions := e.actions + 1
        state := { e.state with utxos }
        issued := e.issued ++ (outputCoins origin 0 outputs).map Prod.fst }
  | asset {e : Engine} {id : ProgramId} {call : AssetCall} {commitment : Hash}
      {journal : AssetJournal} {assets : AssetState} (hid : id ∈ e.entered)
      (hauthorized : call.SelfAuthorized id)
      (happly : AssetState.apply call ⟨.program id, commitment⟩ e.state.assets =
        (.ok journal, assets)) :
      Step ctx e { e with
        state := { e.state with assets }, asset := some (mergeJournal e.asset journal) }
  | setState {e : Engine} {id : ProgramId} {record : ProgramRecord} (hid : id ∈ e.entered)
      (hget : e.state.programs.programs.get? id = some record) (value : I64) :
      Step ctx e { e with
        state := { e.state with programs := { e.state.programs with
          programs := e.state.programs.programs.insert id { record with stateValue := value } } }
        states := e.states.orInsert id record.stateValue }
  | store {e : Engine} {id : ProgramId} {record : ProgramRecord} (hid : id ∈ e.entered)
      (hget : e.state.programs.programs.get? id = some record)
      (hcode : record.code[4]? = some applicationVersion) {key : List Byte}
      (hkey : checkKey key = .ok ()) (hpaid : e.storage.length < e.actions)
      {value : Option (List Byte)} (hvalid : validStorage (record.storage.put key value) = true) :
      Step ctx e { e with
        state := { e.state with programs := { e.state.programs with
          programs := e.state.programs.programs.insert id
            { record with storage := record.storage.put key value } } }
        storage := e.storage.remember (toLex (id, key)) (record.storage.get? key) }

/-- Finitely many steps. -/
abbrev Steps (ctx : CallContext) : Engine → Engine → Prop := Relation.ReflTransGen (Step ctx)

theorem Cached.steps {ctx : CallContext} (h : Cached e e') : Steps ctx e e' := .single (.cached h)

end

/-! ## What the meters bound -/

/-- The programs entered and the actions counted bound the two logs of program changes. -/
structure Metered (e : Engine) : Prop where
  actions_le : e.actions ≤ maxActions
  calls_le : e.calls ≤ maxCalls
  entered_length : e.entered.length = e.calls
  states_entered : e.states.keys ⊆ e.entered
  storage_le : e.storage.length ≤ e.actions
  checked : ∀ k ∈ e.storage.keys, checkKey (ofLex k).2 = .ok ()

theorem metered_start (s : LedgerState) : Metered (.start s) where
  actions_le := Nat.zero_le _
  calls_le := Nat.zero_le _
  entered_length := rfl
  states_entered := nil_subset _
  storage_le := le_refl 0
  checked _ h := absurd h not_mem_nil

variable {ctx : CallContext} {amount : Zeno} {value : AssetShare}

theorem Metered.step [Crypto] (h : Metered e) (hstep : Step ctx e e') : Metered e' := by
  obtain ⟨hactions, hcalls, hlength, hstates, hstorage, hchecked⟩ := h
  cases hstep with
  | cached hcached =>
    obtain ⟨_, _, _, _, rfl⟩ := hcached
    exact ⟨hactions, hcalls, hlength, hstates, hstorage, hchecked⟩
  | action h | coin _ _ _ h _ => exact ⟨h, hcalls, hlength, hstates, Nat.le_succ_of_le hstorage,
    hchecked⟩
  | enter hlt _ =>
    refine ⟨hactions, hlt, ?_, List.Subset.trans hstates (subset_append_left _ _),
      hstorage, hchecked⟩
    rw [length_append, hlength, length_singleton]
  | leave | asset _ _ _ => exact ⟨hactions, hcalls, hlength, hstates, hstorage, hchecked⟩
  | setState hid _ _ =>
    refine ⟨hactions, hcalls, hlength, ?_, hstorage, hchecked⟩
    intro k hk
    rcases mem_keys_orInsert.mp hk with rfl | hk
    · exact hid
    · exact hstates hk
  | store hid _ _ hkey hpaid _ =>
    refine ⟨hactions, hcalls, hlength, hstates, (length_orInsert_le _ _ _).trans hpaid, ?_⟩
    intro k hk
    rcases mem_keys_orInsert.mp hk with rfl | hk
    · exact hkey
    · exact hchecked k hk

theorem Metered.steps [Crypto] (h : Metered e) (hsteps : Steps ctx e e') : Metered e' := by
  induction hsteps with
  | refl => exact h
  | tail _ hstep ih => exact ih.step hstep

/-! ## Meters and cache -/

theorem charge_charged {n : Nat} (h : e.charge n = .ok e') : Charged e e' := by
  unfold charge at h
  split_ifs at h
  cases h
  exact ⟨_, Nat.sub_le _ _, rfl⟩

theorem action_eq_ok : e.action = .ok e' ↔
    e.actions + 1 ≤ maxActions ∧ e' = { e with actions := e.actions + 1 } := by
  unfold action
  split_ifs with h
  · simp [not_le.mpr h]
  · simp [not_lt.mp h, eq_comm]

variable {id : ProgramId} {share : CoinShare}

theorem depositCoin_refilled (h : e.depositCoin id amount share = .ok e') : Refilled e e' := by
  obtain ⟨_, _, rfl⟩ := exceptMap_eq_ok.mp h
  exact ⟨_, _, _, rfl⟩

theorem withdrawCoin_refilled (h : e.withdrawCoin id amount share = .ok e') : Refilled e e' := by
  obtain ⟨_, _, rfl⟩ := exceptMap_eq_ok.mp h
  exact ⟨_, _, _, rfl⟩

theorem depositShare_refilled {share : Share} (h : e.depositShare id share value = .ok e') :
    Refilled e e' := by
  obtain ⟨_, _, rfl⟩ := exceptMap_eq_ok.mp h
  exact ⟨_, _, _, rfl⟩

theorem withdrawShare_refilled {share : Share} (h : e.withdrawShare id share value = .ok e') :
    Refilled e e' := by
  obtain ⟨_, _, rfl⟩ := exceptMap_eq_ok.mp h
  exact ⟨_, _, _, rfl⟩

theorem ensureAccounts_refilled (h : e.ensureAccounts id = .ok e') : Refilled e e' := by
  unfold ensureAccounts at h
  split_ifs at h
  · cases h
    exact .refl e
  · simp only [bind_eq_ok, return_eq_ok] at h
    obtain ⟨e₁, hcoins, e₂, hshares, rfl⟩ := h
    have h₁ : Refilled e e₁ := foldlM_invariant (Refilled e)
      (fun s s' _ _ hs hstep => hs.trans (depositCoin_refilled hstep)) (.refl e) hcoins
    have h₂ : Refilled e e₂ := foldlM_invariant (Refilled e)
      (fun s s' _ _ hs hstep => hs.trans (depositShare_refilled hstep)) h₁ hshares
    exact h₂.trans ⟨_, _, _, rfl⟩

theorem retractShare_refilled {share : Share} {old : Option AssetShare}
    (h : e.retractShare share old = .ok e') : Refilled e e' := by
  cases old with
  | none =>
    cases h
    exact .refl e
  | some value =>
    simp only [retractShare] at h
    split_ifs at h
    · exact withdrawShare_refilled h
    · cases h
      exact .refl e

theorem assertShare_refilled {share : Share} {now : Option AssetShare}
    (h : e.assertShare share now = .ok e') : Refilled e e' := by
  cases now with
  | none =>
    cases h
    exact .refl e
  | some value =>
    simp only [assertShare] at h
    split_ifs at h
    · exact depositShare_refilled h
    · cases h
      exact .refl e

theorem mergeAsset_refilled {journal : AssetJournal} (h : e.mergeAsset journal = .ok e') :
    Refilled { e with asset := some (mergeJournal e.asset journal) } e' := by
  simp only [mergeAsset, bind_eq_ok, return_eq_ok] at h
  obtain ⟨e₁, hfold, rfl⟩ := h
  have h₁ : Refilled e e₁ := by
    refine foldlM_invariant (Refilled e) ?_ (.refl e) hfold
    intro s s' change _ hs hstep
    rw [bind_eq_ok] at hstep
    obtain ⟨t, hretract, hassert⟩ := hstep
    exact (hs.trans (retractShare_refilled hretract)).trans (assertShare_refilled hassert)
  obtain ⟨_, _, _, rfl⟩ := h₁
  exact ⟨_, _, _, rfl⟩

/-! ## Coin notes -/

theorem retractCoin_refilled {value : CoinUtxo} (h : e.retractCoin share value = .ok e') :
    Refilled e e' := by
  unfold retractCoin at h
  split_ifs at h
  · exact withdrawCoin_refilled h
  · cases h
    exact .refl e

theorem assertCoin_refilled {value : CoinUtxo} (h : e.assertCoin share value = .ok e') :
    Refilled e e' := by
  unfold assertCoin at h
  split_ifs at h
  · exact depositCoin_refilled h
  · cases h
    exact .refl e

theorem noteConsumed_refilled {c : CoinShare × CoinUtxo} (h : e.noteConsumed c.1 c.2 = .ok e') :
    Refilled (e.withNotes (e.notes.remove c)) e' := by
  simp only [noteConsumed, bind_eq_ok] at h
  obtain ⟨e₁, hcache, h⟩ := h
  obtain ⟨_, _, _, rfl⟩ := retractCoin_refilled hcache
  unfold withNotes notes NetLog.remove
  dsimp only at h ⊢
  split_ifs at h ⊢
  · cases h
    exact ⟨_, _, _, rfl⟩
  · cases h
    exact ⟨_, _, _, rfl⟩

theorem foldlM_noteConsumed {coins : List (CoinShare × CoinUtxo)}
    (h : coins.foldlM (fun e c => e.noteConsumed c.1 c.2) e = .ok e') :
    Refilled (e.withNotes (coins.foldl NetLog.remove e.notes)) e' := by
  induction coins generalizing e with
  | nil =>
    cases h
    exact .refl _
  | cons c rest ih =>
    rw [foldlM_cons, bind_eq_ok] at h
    obtain ⟨e₁, hstep, hrest⟩ := h
    have hfold := ih hrest
    obtain ⟨_, _, _, rfl⟩ := noteConsumed_refilled hstep
    obtain ⟨_, _, _, rfl⟩ := hfold
    exact ⟨_, _, _, rfl⟩

theorem noteCreated_refilled (h : e.noteCreated share = .ok e') :
    Refilled { e.withNotes (e.notes.add share) with issued := e.issued ++ [share] } e' := by
  simp only [noteCreated, bind_eq_ok] at h
  obtain ⟨value, _, e₁, hcache, h⟩ := h
  obtain ⟨_, _, _, rfl⟩ := assertCoin_refilled hcache
  cases h
  exact ⟨_, _, _, rfl⟩

theorem foldlM_noteCreated {ids : List CoinShare} (h : ids.foldlM noteCreated e = .ok e') :
    Refilled { e.withNotes (ids.foldl NetLog.add e.notes) with issued := e.issued ++ ids } e' := by
  induction ids generalizing e with
  | nil =>
    cases h
    rw [append_nil]
    exact .refl _
  | cons id rest ih =>
    rw [foldlM_cons, bind_eq_ok] at h
    obtain ⟨e₁, hstep, hrest⟩ := h
    have hfold := ih hrest
    obtain ⟨_, _, _, rfl⟩ := noteCreated_refilled hstep
    obtain ⟨_, _, _, rfl⟩ := hfold
    rw [append_cons]
    exact ⟨_, _, _, rfl⟩

theorem selectCoins_charged {request : Option TransferRequest} {legacyRoot : Bool}
    {selected : List CoinShare} (h : e.selectCoins id request legacyRoot = .ok (selected, e')) :
    Charged e e' := by
  unfold selectCoins at h
  cases request with
  | none =>
    cases h
    exact .refl e
  | some request =>
    simp only [bind_eq_ok, chargeInputs] at h
    obtain ⟨_, _, e₁, hcharge, h⟩ := h
    cases h
    split_ifs at hcharge
    · cases hcharge
      exact .refl e
    · exact charge_charged hcharge

theorem selectShares_charged {asset : AssetContract} {amount change : Units} {inputs : List Share}
    (h : e.selectShares id asset amount = .ok (inputs, change, e')) : Charged e e' := by
  simp only [selectShares, bind_eq_ok] at h
  obtain ⟨_, _, e₁, hcharge, _, _, h⟩ := h
  cases h
  exact charge_charged hcharge

theorem mergeSettled_refilled {journal : Option AssetJournal}
    (h : e.mergeSettled journal = .ok e') :
    Refilled { e with asset := mergedWith e.asset journal } e' := by
  cases journal with
  | none =>
    cases h
    exact .refl _
  | some j => exact mergeAsset_refilled h

/-! ## Runs -/

section
variable [Crypto] {ctx : CallContext} {id : ProgramId}

/-- A sequence of steps that ends in the frame it began in. -/
def Runs (ctx : CallContext) (e e' : Engine) : Prop := Steps ctx e e' ∧ e'.active = e.active

theorem Runs.refl (e : Engine) : Runs ctx e e := ⟨.refl, rfl⟩

theorem Runs.trans (h : Runs ctx e e') (h' : Runs ctx e' e'') : Runs ctx e e'' :=
  ⟨h.1.trans h'.1, h'.2.trans h.2⟩

omit [Crypto] in
theorem Cached.active (h : Cached e e') : e'.active = e.active := by
  obtain ⟨_, _, _, _, rfl⟩ := h
  rfl

theorem Cached.runs (h : Cached e e') : Runs ctx e e' := ⟨h.steps, h.active⟩

omit [Crypto] in
theorem Cached.entered (h : Cached e e') : e'.entered = e.entered := by
  obtain ⟨_, _, _, _, rfl⟩ := h
  rfl

omit [Crypto] in
theorem Cached.issued (h : Cached e e') : e'.issued = e.issued := by
  obtain ⟨_, _, _, _, rfl⟩ := h
  rfl

theorem Step.entered_subset (h : Step ctx e e') : e.entered ⊆ e'.entered := by
  cases h with
  | cached h => rw [h.entered]; exact List.Subset.refl _
  | enter _ _ => exact subset_append_left _ _
  | action _ | leave | coin _ _ _ _ _ | asset _ _ _ | setState _ _ _ | store _ _ _ _ _ _ =>
    exact List.Subset.refl _

theorem Steps.entered_subset (h : Steps ctx e e') : e.entered ⊆ e'.entered := by
  induction h with
  | refl => exact List.Subset.refl _
  | tail _ hstep ih => exact List.Subset.trans ih hstep.entered_subset

/-- The code of a program. -/
def codeOf (e : Engine) (id : ProgramId) : Option (List Byte) :=
  (e.state.programs.programs.get? id).map ProgramRecord.code

variable {record : ProgramRecord} {coin : CoinRollbackJournal} {e₁ e₂ : Engine}
  {result : ExecutionResult} {legacyRoot paid : Bool} {state : LedgerState}
  {commitment : Hash} {outputs : List AssetOutput} {value : U128}

omit [Crypto] in
theorem codeOf_insert {programs : OrderedMap ProgramId ProgramRecord} {id' : ProgramId}
    {changed : ProgramRecord} (hget : programs.get? id = some record)
    (hcode : changed.code = record.code) :
    ((programs.insert id changed).get? id').map ProgramRecord.code =
      (programs.get? id').map ProgramRecord.code := by
  rw [get?_insert]
  split_ifs with hid
  · rw [hid, hget, Option.map_some, Option.map_some, hcode]
  · rfl

theorem Step.codeOf_eq (h : Step ctx e e') (id : ProgramId) : e'.codeOf id = e.codeOf id := by
  cases h with
  | cached h =>
    obtain ⟨_, _, _, _, rfl⟩ := h
    rfl
  | setState _ hget _ => exact codeOf_insert hget rfl
  | store _ hget _ _ _ _ => exact codeOf_insert hget rfl
  | action _ | enter _ _ | leave | coin _ _ _ _ _ | asset _ _ _ => rfl

theorem Steps.codeOf_eq (h : Steps ctx e e') (id : ProgramId) : e'.codeOf id = e.codeOf id := by
  induction h with
  | refl => rfl
  | tail _ hstep ih => exact (hstep.codeOf_eq id).trans ih

/-! ## Settlement -/

variable {journal : Option AssetJournal} {asset : AssetContract} {callee : Callee}

theorem steps_assetCalls {assets : AssetState} (hid : id ∈ e.entered)
    (h : AssetCalls id e.state.assets journal assets) :
    Steps ctx e { e with
      state := { e.state with assets }, asset := mergedWith e.asset journal } := by
  induction h with
  | nil => exact .refl
  | @snoc previous mid assets' call commitment journal _ hauthorized happly ih =>
    have hstep := ih.tail (Step.asset hid hauthorized happly)
    rw [mergedWith, mergeJournal_assoc]
    exact hstep

omit [Crypto] in
theorem settleNotes_refilled
    (hconsumed : coin.consumedCoins.foldlM (fun e c => e.noteConsumed c.1 c.2) e = .ok e₁)
    (hcreated : coin.createdCoinIds.foldlM noteCreated e₁ = .ok e₂)
    (hmerge : e₂.mergeSettled journal = .ok e') :
    Refilled { e.withNotes (coin.createdCoinIds.foldl NetLog.add
        (coin.consumedCoins.foldl NetLog.remove e.notes)) with
      issued := e.issued ++ coin.createdCoinIds, asset := mergedWith e.asset journal } e' := by
  have hfold := foldlM_noteConsumed hconsumed
  have hfold' := foldlM_noteCreated hcreated
  have hmerged := mergeSettled_refilled hmerge
  obtain ⟨_, _, _, rfl⟩ := hfold
  obtain ⟨_, _, _, rfl⟩ := hfold'
  obtain ⟨_, _, _, rfl⟩ := hmerged
  exact ⟨_, _, _, rfl⟩

theorem steps_settleWithInputs {selected : List CoinShare}
    (hid : id ∈ e.entered)
    (hroot : legacyRoot = true → e.issued = []) (hactions : e.actions + 1 ≤ maxActions)
    (h : settleWithInputs e.state id result (effectCommitment ctx legacyRoot (e.actions + 1))
      systemApplications (some selected) = .ok (coin, journal, state)) :
    Steps ctx e { e.withNotes (coin.createdCoinIds.foldl NetLog.add
        (coin.consumedCoins.foldl NetLog.remove e.notes)) with
      actions := e.actions + 1, state
      issued := e.issued ++ coin.createdCoinIds, asset := mergedWith e.asset journal } := by
  simp only [settleWithInputs, bind_eq_ok, Prod.exists, return_eq_ok, Prod.mk.injEq] at h
  obtain ⟨_, s₁, hcoin, _, s₂, hasset, rfl, rfl, rfl⟩ := h
  obtain ⟨assets, hcalls, rfl⟩ := settleAsset_ok hasset
  rcases settleCoin_ok hcoin with ⟨_, rfl, rfl⟩ | ⟨coins, outputs, utxos, hmove, rfl, rfl⟩
  · rw [show CoinRollbackJournal.empty.createdCoinIds = [] from rfl, append_nil]
    have hstep : Step ctx e { e with actions := e.actions + 1 } := .action hactions
    exact (Relation.ReflTransGen.single hstep).trans
      (steps_assetCalls (e := { e with actions := e.actions + 1 }) hid hcalls)
  · have hstep : Step ctx e _ := .coin hid rfl hmove hactions hroot
    exact (Relation.ReflTransGen.single hstep).trans (steps_assetCalls hid hcalls)

theorem settle_runs (hsys : ctx.apps = systemApplications) (hid : id ∈ e.entered)
    (hroot : legacyRoot = true → e.issued = []) (h : e.settle ctx id result legacyRoot = .ok e') :
    Runs ctx e e' := by
  simp only [settle, bind_eq_ok, Prod.exists, orError_eq_ok, action_eq_ok, hsys] at h
  obtain ⟨e₁, hensure, selected, e₂, hselect, e₃, ⟨hactions, rfl⟩, coin, asset, state,
    hsettle, e₄, hconsumed, e₅, hcreated, hmerge⟩ := h
  have hcached : Cached e e₂ :=
    (ensureAccounts_refilled hensure).cached.trans (selectCoins_charged hselect).cached
  have hid₂ : id ∈ e₂.entered := by rw [hcached.entered]; exact hid
  have hroot₂ : legacyRoot = true → e₂.issued = [] := by rw [hcached.issued]; exact hroot
  have hsteps := steps_settleWithInputs hid₂ hroot₂ hactions hsettle
  have hnotes := (settleNotes_refilled hconsumed hcreated hmerge).cached
  exact ⟨(hcached.steps.trans hsteps).tail (.cached hnotes), hnotes.active.trans hcached.active⟩

/-! ## Asset calls -/

theorem applyAsset_runs {call : AssetCall} (hsys : ctx.apps = systemApplications)
    (hid : id ∈ e.entered) (hauthorized : call.SelfAuthorized id)
    (h : e.applyAsset ctx id call commitment = .ok e') : Runs ctx e e' := by
  simp only [applyAsset, bind_eq_ok, Prod.exists, orError_eq_ok, hsys, executeAssetFor_eq_ok] at h
  obtain ⟨journal, assets, happly, hmerge⟩ := h
  have hcached := (mergeAsset_refilled hmerge).cached
  have hstep : Step ctx e _ := .asset hid hauthorized happly
  exact ⟨(Relation.ReflTransGen.single hstep).tail (.cached hcached), hcached.active⟩

theorem runs_of_action {call : AssetCall} (hsys : ctx.apps = systemApplications)
    (hid : id ∈ e.entered) (h₁ : Cached e e₁) (haction : e₁.action = .ok e₂) {e₃ : Engine}
    (h₂ : Cached e₂ e₃) (happly : e₃.applyAsset ctx id call commitment = .ok e')
    (hauthorized : call.SelfAuthorized id) : Runs ctx e e' := by
  obtain ⟨hactions, rfl⟩ := action_eq_ok.mp haction
  have hid₃ : id ∈ e₃.entered := by rw [h₂.entered]; exact h₁.entered ▸ hid
  have hact : Runs ctx e₁ { e₁ with actions := e₁.actions + 1 } := ⟨.single (.action hactions), rfl⟩
  exact ((h₁.runs.trans hact).trans h₂.runs).trans (applyAsset_runs hsys hid₃ hauthorized happly)

theorem transferAssetOutputs_runs (hsys : ctx.apps = systemApplications) {multiple : Bool}
    (hid : id ∈ e.entered) (h : e.transferAssetOutputs ctx id asset outputs multiple = .ok e') :
    Runs ctx e e' := by
  simp only [transferAssetOutputs, bind_eq_ok, Prod.exists] at h
  obtain ⟨e₁, hensure, amount, _, _, _, e₂, haction, inputs, change, e₃, hselect, _, _, happly⟩ := h
  exact runs_of_action hsys hid (ensureAccounts_refilled hensure).cached haction
    (selectShares_charged hselect).cached happly trivial

theorem transferAssetMany_runs (hsys : ctx.apps = systemApplications) (hid : id ∈ e.entered)
    (h : e.transferAssetMany ctx id asset outputs = .ok e') : Runs ctx e e' := by
  simp only [transferAssetMany, bind_eq_ok] at h
  obtain ⟨_, _, e₁, hcharge, htransfer⟩ := h
  have hcached := (charge_charged hcharge).cached
  have hid₁ : id ∈ e₁.entered := by rw [hcached.entered]; exact hid
  exact hcached.runs.trans (transferAssetOutputs_runs hsys hid₁ htransfer)

theorem burnAsset_runs (hsys : ctx.apps = systemApplications) {amount : Units}
    (hid : id ∈ e.entered) (h : e.burnAsset ctx id asset amount = .ok e') : Runs ctx e e' := by
  simp only [burnAsset, bind_eq_ok, Prod.exists] at h
  obtain ⟨e₁, hensure, _, _, e₂, haction, inputs, change, e₃, hselect, happly⟩ := h
  exact runs_of_action hsys hid (ensureAccounts_refilled hensure).cached haction
    (selectShares_charged hselect).cached happly trivial

/-! ## Program state -/

theorem setState_runs {value : I64} (hid : id ∈ e.entered) (h : e.setState id value = .ok e') :
    Runs ctx e e' := by
  simp only [Engine.setState, exceptMap_eq_ok, okOr_eq_ok, Prod.exists,
    ProgramRegistry.setState_eq_some] at h
  obtain ⟨before, programs, ⟨record, hget, rfl, rfl⟩, rfl⟩ := h
  exact ⟨.single (.setState hid hget value), rfl⟩

theorem storeStorage_runs {key : List Byte} {value : Option (List Byte)} (hid : id ∈ e.entered)
    (hcode : ∀ code, e.codeOf id = some code → code[4]? = some applicationVersion)
    (hpaid : e.storage.length < e.actions) (hkey : checkKey key = .ok ())
    (h : e.storeStorage id key value = .ok e') : Runs ctx e e' := by
  simp only [storeStorage, bind_eq_ok, orError_eq_ok, record, okOr_eq_ok, ProgramRegistry.program,
    ProgramRegistry.setStorage_eq_ok, return_eq_ok, rejectIf_eq_ok] at h
  obtain ⟨record, hget, programs, ⟨record', hget', rfl⟩, written, hwritten, _, hvalid, rfl⟩ := h
  obtain rfl : record = record' := Option.some.inj (hget.symm.trans hget')
  rw [get?_insert_self] at hwritten
  cases hwritten
  have hversion : record.code[4]? = some applicationVersion := hcode _ (by rw [codeOf, hget]; rfl)
  exact ⟨.single (.store hid hget hversion hkey hpaid (Bool.eq_true_of_not_eq_false hvalid)), rfl⟩

/-! ## Frames -/

/-- The engine is inside a frame of `id`, whose code is application code. -/
structure Framed (id : ProgramId) (e : Engine) : Prop where
  active : e.active ≠ []
  entered : id ∈ e.entered
  version : ∀ code, e.codeOf id = some code → code[4]? = some applicationVersion
  metered : Metered e

theorem Framed.runs (h : Framed id e) (hruns : Runs ctx e e') : Framed id e' where
  active := hruns.2 ▸ h.active
  metered := h.metered.steps hruns.1
  entered := hruns.1.entered_subset h.entered
  version code hcode := h.version code ((hruns.1.codeOf_eq id).symm.trans hcode)

omit [Crypto] in
theorem answered_eq_ok {x : Except ExecutionError Engine} {u : Unit} :
    answered x = .ok (u, e') ↔ x = .ok e' := by
  cases x <;> simp [answered, Except.map]

theorem handle_runs (hsys : ctx.apps = systemApplications)
    (hcallee : ∀ target caller input deposit e value e', e.active ≠ [] → Metered e →
      callee target caller input deposit e = .ok (value, e') → Runs ctx e e') (r : FrameRequest)
    (x : r.Answer) (hframed : Framed id e) (hpaid : paid = true → e.storage.length < e.actions)
    (hallowed : storeProtocol.Allowed paid r) (h : handle ctx callee id r e = .ok (x, e')) :
    Runs ctx e e' := by
  have hid := hframed.entered
  cases r with
  | charge n => exact (charge_charged (answered_eq_ok.mp h)).cached.runs
  | action =>
    obtain ⟨hactions, rfl⟩ := action_eq_ok.mp (answered_eq_ok.mp h)
    exact ⟨.single (.action hactions), rfl⟩
  | setState value => exact setState_runs hid (answered_eq_ok.mp h)
  | storeStorage key value =>
    exact storeStorage_runs hid hframed.version (hpaid hallowed.1) hallowed.2 (answered_eq_ok.mp h)
  | ensureAccounts => exact (ensureAccounts_refilled (answered_eq_ok.mp h)).cached.runs
  | settle result =>
    exact settle_runs hsys hid (fun hfalse => by cases hfalse) (answered_eq_ok.mp h)
  | transferAsset asset recipient amount =>
    exact transferAssetOutputs_runs hsys hid (answered_eq_ok.mp h)
  | transferAssetMany asset outputs => exact transferAssetMany_runs hsys hid (answered_eq_ok.mp h)
  | burnAsset asset amount => exact burnAsset_runs hsys hid (answered_eq_ok.mp h)
  | call target input deposit => exact hcallee _ _ _ _ _ _ _ hframed.active hframed.metered h
  | stateValue | loadStorage key | owner =>
    obtain ⟨record, _, hpair⟩ := exceptMap_eq_ok.mp h
    cases hpair
    exact .refl e
  | assetBalance asset | coinBalance =>
    cases h
    exact .refl e

theorem handle_pays {r : FrameRequest} {x : r.Answer} (hmetered : Metered e)
    (h : handle ctx callee id r e = .ok (x, e')) :
    storeProtocol.after paid r = true → e'.storage.length < e'.actions := by
  intro hafter
  cases r with
  | action =>
    obtain ⟨_, rfl⟩ := action_eq_ok.mp (answered_eq_ok.mp h)
    exact Nat.lt_succ_of_le hmetered.storage_le
  | _ => cases hafter

theorem interpret_runs (hsys : ctx.apps = systemApplications)
    (hcallee : ∀ target caller input deposit e value e', e.active ≠ [] → Metered e →
      callee target caller input deposit e = .ok (value, e') → Runs ctx e e') {env : FrameEnv}
    {code : List Byte} (hframed : Framed id e)
    (h : (interpret env code).run (handle ctx callee id) e = .ok (value, e')) : Runs ctx e e' := by
  -- the phase of the protocol is what the last request paid for
  let J : Bool → Engine → Prop := fun paid a =>
    Runs ctx e a ∧ Framed id a ∧ (paid = true → a.storage.length < a.actions)
  have hstep : ∀ paid r a x a', J paid a → storeProtocol.Allowed paid r →
      handle ctx callee id r a = .ok (x, a') → J (storeProtocol.after paid r) a' := by
    rintro paid r a x a' ⟨hruns, hframed, hpaid⟩ hallowed hhandle
    have hnext := handle_runs hsys hcallee r x hframed hpaid hallowed hhandle
    exact ⟨hruns.trans hnext, hframed.runs hnext, handle_pays hframed.metered hhandle⟩
  have hstart : J false e := ⟨.refl e, hframed, Bool.noConfusion⟩
  obtain ⟨_, hruns, _⟩ := RequestTree.run_obeys J hstep (interpret_free env code false) hstart h
  exact hruns

theorem runLegacy_runs (hsys : ctx.apps = systemApplications) {data : List Byte}
    (hid : id ∈ e.entered) (hroot : e.active.length = 1 → e.issued = [])
    (h : e.runLegacy ctx id record data = .ok (value, e')) : Runs ctx e e' := by
  simp only [runLegacy, bind_eq_ok, return_eq_ok, Prod.mk.injEq] at h
  obtain ⟨_, _, result, _, e₁, hcharge, e₂, hsettle, e₃, hset, _, rfl⟩ := h
  have hcached := (charge_charged hcharge).cached
  have hid₁ : id ∈ e₁.entered := by rw [hcached.entered]; exact hid
  have hruns₂ : Runs ctx e₁ e₂ := by
    unfold settleProposal at hsettle
    split_ifs at hsettle
    · refine settle_runs hsys hid₁ ?_ hsettle
      rw [hcached.active, hcached.issued, decide_eq_true_eq]
      exact hroot
    · cases hsettle
      exact .refl e₁
  have hruns₃ : Runs ctx e₂ e₃ := by
    unfold setProposed at hset
    split at hset
    · exact setState_runs (hruns₂.1.entered_subset hid₁) hset
    · cases hset
      exact .refl e₂
  exact (hcached.runs.trans hruns₂).trans hruns₃

/-- A successful call is a run. Legacy code settles under the plain commitment only in the root
frame, before anything was issued. -/
theorem call_runs (hsys : ctx.apps = systemApplications) (depth : Nat) (id : ProgramId)
    (caller : Owner) (data : List Byte) (deposit : U64) (e : Engine) (value : U128) (e' : Engine)
    (hroot : e.active = [] → e.issued = []) (hmetered : Metered e)
    (h : call ctx depth id caller data deposit e = .ok (value, e')) : Runs ctx e e' := by
  induction depth generalizing id caller data deposit e value e' with
  | zero => cases h
  | succ depth ih =>
    simp only [call, bind_eq_ok, Prod.exists, enter, record, okOr_eq_ok, ProgramRegistry.program,
      return_eq_ok, Prod.mk.injEq, rejectIf_eq_ok, not_or, not_le] at h
    obtain ⟨record, e₁, ⟨_, ⟨_, _, hcalls⟩, _, _, record', hget, rfl, rfl⟩, value', e₂,
      hrun, rfl, rfl⟩ := h
    have henter : Step ctx e _ := .enter hcalls hget
    have hruns : Runs ctx { e with
        calls := e.calls + 1, active := id :: e.active, entered := e.entered ++ [id] } e₂ := by
      have hid : id ∈ e.entered ++ [id] := by simp
      unfold runEntered at hrun
      split_ifs at hrun with hversion
      · refine runLegacy_runs hsys hid ?_ hrun
        intro hlength
        exact hroot (length_eq_zero_iff.mp (Nat.succ.inj hlength))
      · rw [not_not] at hversion
        refine interpret_runs hsys ?_ ⟨cons_ne_nil _ _, hid, ?_, hmetered.step henter⟩ hrun
        · intro target caller input deposit e value e' hactive hmetered hcall
          exact ih target caller input deposit e value e' (fun hnil => absurd hnil hactive)
            hmetered hcall
        · intro code hcode
          rw [codeOf, hget] at hcode
          cases hcode
          exact hversion
    refine ⟨((Relation.ReflTransGen.single henter).trans hruns.1).tail .leave, ?_⟩
    change e₂.active.tail = e.active
    rw [hruns.2]
    rfl

theorem applyVm_steps {state' : LedgerState} {tx : AuthorizedProgramInvocation} {height : U64}
    {commitment : AuthorizationCommitment} {applied : AppliedVm}
    (h : applyVm state tx height commitment systemApplications = .ok (applied, state')) :
    ∃ e value, Steps ⟨systemApplications, tx.signer, height, commitment⟩ (.start state) e ∧
      e.report value = .ok applied ∧ e.state = state' := by
  simp only [applyVm, bind_eq_ok, Prod.exists, return_eq_ok, Prod.mk.injEq] at h
  obtain ⟨id, data, _, deposit, _, value, e, hcall, applied', hreport, rfl, rfl⟩ := h
  exact ⟨e, value, (call_runs rfl _ _ _ _ _ _ _ _ (fun _ => rfl) (metered_start state) hcall).1,
    hreport, rfl⟩

end

end Engine

end Xparq
