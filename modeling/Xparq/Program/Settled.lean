import Xparq.Program.Settlement
import Xparq.Ledger.Sound

/-!
# What a settlement does

A coin settlement consumes coins of the program and creates at most two outputs of the same
value under identifiers of its origin (`settleCoin_ok`). An asset settlement is a sequence of
calls of the program, each executed by `AssetState.apply`, with the journals merged
(`settleAsset_ok`, `AssetCalls`).
-/

namespace Xparq

open Machine Outcome OrderedMap Selection

variable [Crypto]

/-- A program moved coins of its own: what it consumed and what it created. -/
structure CoinMove (id : ProgramId) (origin : Hash) (coins : List (CoinShare × CoinUtxo))
    (outputs : List (Owner × Zeno)) (utxos utxos' : UtxoSet) : Prop where
  owned : ∀ c ∈ coins, c.2.owner = .program id
  moved : ∃ mid, consumeCoins utxos (coins.map Prod.fst) = .ok (coins, mid) ∧
    createCoins origin 0 mid outputs = .ok ((outputCoins origin 0 outputs).map Prod.fst, utxos')
  balanced : sumCoins coins = (outputs.map fun o => o.2.val).sum
  few : outputs.length ≤ 2

/-- The journal of a coin settlement. -/
def settlementJournal (origin : Hash) (coins : List (CoinShare × CoinUtxo))
    (outputs : List (Owner × Zeno)) : CoinRollbackJournal :=
  { CoinRollbackJournal.empty with
    consumedCoins := coins, createdCoinIds := (outputCoins origin 0 outputs).map Prod.fst }

variable {n : Nat} {asset : AssetContract} {registered : Option AssetContract}

omit [Crypto] in
theorem sum_withChange [NeZero n] (recipient actor : Owner) (amount change : Fin n) :
    ((withChange recipient actor amount change).map fun o => o.2.val).sum =
      amount.val + change.val := by
  unfold withChange
  split_ifs with h <;> simp [h]

omit [Crypto] in
theorem length_withChange [NeZero n] (recipient actor : Owner) (amount change : Fin n) :
    (withChange recipient actor amount change).length ≤ 2 := by
  unfold withChange
  split_ifs <;> simp

omit [Crypto] in
theorem gather_sumCoins {candidates inputs : List (CoinShare × CoinUtxo)} {target total : Zeno}
    {overflow : StateError}
    (h : gather (fun e => .ok e.2.amount) overflow target candidates 0 = .ok (inputs, total)) :
    inputs <+: candidates ∧ total.val = sumCoins inputs := by
  obtain ⟨hinit, amounts, hamounts, htotal⟩ := gather_ok h
  refine ⟨hinit, ?_⟩
  have hsame : inputs.map (fun e => e.2.amount) = amounts := by
    clear htotal h hinit
    induction hamounts with
    | nil => rfl
    | cons ha _ ih =>
      rw [List.map_cons, ih]
      cases ha
      rfl
  rw [htotal, ← hsame, sumCoins, List.map_map]
  simp [Function.comp_def]

/-- What the coin part of a settlement did: nothing, or one move. -/
theorem settleCoin_ok {s s' : LedgerState} {id : ProgramId} {result : ExecutionResult}
    {origin : Hash} {selected : List CoinShare} {journal : CoinRollbackJournal}
    (h : settleCoin s (.program id) result origin (some selected) = .ok (journal, s')) :
    (result.coinTransfer = none ∧ journal = .empty ∧ s' = s) ∨ ∃ coins outputs utxos,
      CoinMove id origin coins outputs s.utxos utxos ∧
      journal = settlementJournal origin coins outputs ∧
        s' = { s with utxos } := by
  unfold settleCoin at h
  cases hrequest : result.coinTransfer with
  | none =>
    rw [hrequest] at h
    cases h
    exact .inl ⟨rfl, rfl, rfl⟩
  | some request =>
    rw [hrequest] at h
    simp only [bind_eq_ok, coinCandidates, rejectIf_eq_ok, okOr_eq_ok, checkedSub_eq_some,
      pure_eq_ok, Except.ok.injEq, Prod.mk.injEq, Prod.exists] at h
    obtain ⟨candidates, ⟨_, _, hmapM⟩, inputs, total, hgather, change, hchange, coins,
      mid, hconsume, ids, utxos, hcreate, rfl, rfl⟩ := h
    obtain ⟨hinit, htotal⟩ := gather_sumCoins hgather
    have hlive : ∀ e ∈ inputs, s.utxos.coins.get? e.1 = some e.2 ∧ e.2.owner = .program id := by
      intro e he
      obtain ⟨a, _, ha⟩ := mem_of_mapM hmapM (hinit.subset he)
      simp only [bind_eq_ok, okOr_eq_ok, rejectIf_eq_ok, not_not, Except.ok.injEq] at ha
      obtain ⟨coin, hcoin, _, howner, rfl⟩ := ha
      exact ⟨hcoin, howner⟩
    obtain ⟨hmap, _, hlive', _⟩ := consumeCoins_ok hconsume
    obtain rfl := lookup_unique hmap hlive' fun e he => (hlive e he).1
    obtain ⟨rfl, _⟩ := createCoins_ok hcreate
    refine .inr ⟨coins, _, utxos, ⟨fun c hc => (hlive c hc).2, ⟨mid, hconsume, hcreate⟩, ?_,
      length_withChange _ _ _ _⟩, rfl, rfl⟩
    rw [sum_withChange, ← htotal]
    omega

/-! ## Asset calls of a program -/

variable {assets assets' : AssetState} {journal : AssetJournal}

theorem executeAssetFor_eq_ok {call : AssetCall} {actor : Owner} {commitment : Hash} :
    executeAssetFor systemApplications assets call actor commitment = .ok (journal, assets') ↔
      AssetState.apply call ⟨actor, commitment⟩ assets = (.ok journal, assets') := by
  rw [executeAssetFor, orError_eq_ok, executeAsset_system, InPlace.staged_eq_ok]

/-- The program makes itself the mint authority of what it registers. -/
def AssetCall.SelfAuthorized (id : ProgramId) : AssetCall → Prop
  | .register c => c.mintAuthority = .program id
  | _ => True

/-- A sequence of calls of one program, with the merged journal. -/
inductive AssetCalls (id : ProgramId) (assets : AssetState) :
    Option AssetJournal → AssetState → Prop
  | nil : AssetCalls id assets none assets
  | snoc {previous : Option AssetJournal} {mid assets' : AssetState} {call : AssetCall}
      {commitment : Hash} {journal : AssetJournal} (hprevious : AssetCalls id assets previous mid)
      (hauthorized : call.SelfAuthorized id)
      (happly : AssetState.apply call ⟨.program id, commitment⟩ mid = (.ok journal, assets')) :
      AssetCalls id assets (some (mergeJournal previous journal)) assets'

/-- Join the journal of a settlement that may have none. -/
def mergedWith (previous : Option AssetJournal) : Option AssetJournal → Option AssetJournal
  | none => previous
  | some journal => some (mergeJournal previous journal)

omit [Crypto] in
theorem mergeJournal_assoc (first second : Option AssetJournal) (third : AssetJournal) :
    mergeJournal first (mergeJournal second third) =
      mergeJournal (mergedWith first second) third := by
  cases first <;> cases second <;>
    simp [mergeJournal, mergedWith, AssetJournal.merge, UndoLog.merge_assoc]

variable {s s' : LedgerState} {id : ProgramId} {result : ExecutionResult}
  {commitment : AuthorizationCommitment} {origin : Hash}

theorem settleRegister_ok {request : RegisterAssetRequest} {journal : Option AssetJournal}
    (h : settleRegister assets id request commitment systemApplications =
      .ok (asset, journal, assets')) :
    AssetCalls id assets journal assets' := by
  simp only [settleRegister, bind_eq_ok] at h
  obtain ⟨⟨metadata, asset'⟩, _, h⟩ := h
  dsimp only at h
  split at h
  · simp only [bind_eq_ok, return_eq_ok, Prod.mk.injEq] at h
    obtain ⟨_, _, _, rfl, rfl⟩ := h
    exact .nil
  · simp only [bind_eq_ok, Prod.exists, return_eq_ok, Prod.mk.injEq] at h
    obtain ⟨j, a, hexec, _, rfl, rfl⟩ := h
    have hauthorized : (AssetCall.register (registerCall id request)).SelfAuthorized id := rfl
    exact .snoc .nil hauthorized (executeAssetFor_eq_ok.mp hexec)

theorem settleMint_ok {request : MintAssetRequest}
    (h : settleMint assets id request registered commitment systemApplications =
      .ok (journal, assets')) :
    ∃ call commitment, AssetCall.SelfAuthorized id call ∧
      AssetState.apply call ⟨.program id, commitment⟩ assets = (.ok journal, assets') := by
  simp only [settleMint, bind_eq_ok] at h
  obtain ⟨asset, _, record, _, nonce, _, hexec⟩ := h
  exact ⟨.mint _, _, trivial, executeAssetFor_eq_ok.mp hexec⟩

theorem settleTransfer_ok {request : TransferRequest}
    (h : settleTransfer assets id asset request systemApplications origin =
      .ok (journal, assets')) :
    ∃ call commitment, AssetCall.SelfAuthorized id call ∧
      AssetState.apply call ⟨.program id, commitment⟩ assets = (.ok journal, assets') := by
  simp only [settleTransfer, bind_eq_ok] at h
  obtain ⟨_, _, change, _, hexec⟩ := h
  exact ⟨.transfer _, _, trivial, executeAssetFor_eq_ok.mp hexec⟩

theorem settleRegisterRequest_ok {request : Option RegisterAssetRequest}
    {journal : Option AssetJournal}
    (h : settleRegisterRequest assets id request commitment systemApplications =
      .ok (registered, journal, assets')) :
    AssetCalls id assets journal assets' := by
  unfold settleRegisterRequest at h
  split at h
  · cases h
    exact .nil
  · rw [exceptMap_eq_ok] at h
    obtain ⟨⟨asset, j, a⟩, hregister, h⟩ := h
    cases h
    exact settleRegister_ok hregister

theorem settleOptional_ok {R : Type} {request : Option R}
    {previous next : Option AssetJournal × AssetState}
    {settle : R → AssetState → Except StateError (AssetJournal × AssetState)}
    (h : settleOptional request previous settle = .ok next)
    (hcalls : AssetCalls id assets previous.1 previous.2)
    (hsettle : ∀ r journal assets', settle r previous.2 = .ok (journal, assets') →
      ∃ call commitment, AssetCall.SelfAuthorized id call ∧
        AssetState.apply call ⟨.program id, commitment⟩ previous.2 = (.ok journal, assets')) :
    AssetCalls id assets next.1 next.2 := by
  unfold settleOptional at h
  split at h
  · cases h
    exact hcalls
  · rw [exceptMap_eq_ok] at h
    obtain ⟨⟨journal, a⟩, hok, h⟩ := h
    cases h
    obtain ⟨call, commitment, hauthorized, happly⟩ := hsettle _ _ _ hok
    exact .snoc hcalls hauthorized happly

/-- What the asset part of a settlement did. -/
theorem settleAsset_ok {journal : Option AssetJournal}
    (h : settleAsset s id result commitment systemApplications origin = .ok (journal, s')) :
    ∃ assets, AssetCalls id s.assets journal assets ∧ s' = { s with assets } := by
  simp only [settleAsset, bind_eq_ok, Prod.exists, return_eq_ok, Prod.mk.injEq] at h
  obtain ⟨registered, j₁, a₁, hregister, j₂, a₂, hmint, j₃, a₃, htransfer, rfl, rfl⟩ := h
  have hcalls₁ := settleRegisterRequest_ok hregister
  have hcalls₂ := settleOptional_ok hmint hcalls₁ fun _ _ _ => settleMint_ok
  have hcalls₃ := settleOptional_ok htransfer hcalls₂ fun _ _ _ => settleTransfer_ok
  exact ⟨a₃, hcalls₃, rfl⟩

end Xparq
