import Xparq.Ledger.Trace

/-!
# Who can change what

`LedgerState.Spares acting s s'` says that on the way from `s` to `s'` nothing was taken from an
owner that does not act: its coins and shares are untouched, nothing is minted in its name, and
the state and the storage of a program that does not act stay as they are. The code of a program
and the metadata of an asset stay in any case.

`vm_spares` is the statement for one invocation, in which the programs act that were entered.
An operation adds the signer whose authorization was verified, and
`History.untouched_of_unsigned` follows whole chains of blocks.
-/

namespace Xparq

open Machine Outcome OrderedMap List

/-! ## What stays -/

/-- A record keeps its metadata, and what was minted changes only if the mint authority acts. -/
structure AssetState.Spares (acting : Set ProgramId) (s s' : AssetState) : Prop where
  shares : ∀ id share, s.shares.get? id = some share → share.owner.programId ∉ acting →
    s'.shares.get? id = some share
  records : ∀ asset r, s.records.get? asset = some r → ∃ r', s'.records.get? asset = some r' ∧
    r'.metadata = r.metadata ∧
    (r.metadata.mintAuthority.programId ∉ acting → r'.totalMinted = r.totalMinted)

/-- What a deployment fixes in the record of a program. -/
def ProgramRecord.deployed (r : ProgramRecord) :
    ProgramHash × List Byte × ProgramId × U64 × Height :=
  (r.codeHash, r.code, r.owner, r.nonce, r.deployedAt)

structure LedgerState.Spares (acting : Set ProgramId) (s s' : LedgerState) : Prop where
  coins : ∀ share coin, s.utxos.coins.get? share = some coin → coin.owner.programId ∉ acting →
    s'.utxos.coins.get? share = some coin
  assets : s.assets.Spares acting s'.assets
  programs : ∀ id r, s.programs.programs.get? id = some r → ∃ r',
    s'.programs.programs.get? id = some r' ∧
    r'.deployed = r.deployed ∧ (id ∉ acting → r' = r)

/-- The programs that are registered. -/
def LedgerState.registered (s : LedgerState) : Set ProgramId := {id | id ∈ s.programs.programs.keys}

section
variable {acting acting' : Set ProgramId}

namespace AssetState

variable {s s' s'' : AssetState}

theorem Spares.of_eq (hshares : s'.shares = s.shares) (hrecords : s'.records = s.records) :
    s.Spares acting s' where
  shares _ _ h _ := hshares ▸ h
  records _ r h := ⟨r, hrecords ▸ h, rfl, fun _ => rfl⟩

theorem Spares.trans (h : s.Spares acting s') (h' : s'.Spares acting s'') :
    s.Spares acting s'' := by
  refine ⟨?_, ?_⟩
  · intro id share hlive hother
    exact h'.shares id share (h.shares id share hlive hother) hother
  · intro asset r hr
    obtain ⟨r', hr', hmeta, hminted⟩ := h.records asset r hr
    obtain ⟨r'', hr'', hmeta', hminted'⟩ := h'.records asset r' hr'
    refine ⟨r'', hr'', hmeta'.trans hmeta, ?_⟩
    intro hother
    rw [hminted' (by rwa [hmeta]), hminted hother]

theorem Spares.mono (hsub : acting ⊆ acting') (h : s.Spares acting s') : s.Spares acting' s' := by
  refine ⟨?_, ?_⟩
  · intro id share hlive hother
    exact h.shares id share hlive fun hin => hother (hsub hin)
  · intro asset r hr
    obtain ⟨r', hr', hmeta, hminted⟩ := h.records asset r hr
    exact ⟨r', hr', hmeta, fun hother => hminted fun hin => hother (hsub hin)⟩

end AssetState

namespace LedgerState

variable {s s' s'' : LedgerState}

theorem Spares.of_same (h : Same s' s) : s.Spares acting s' where
  coins _ _ hlive _ := h.coins ▸ hlive
  assets := .of_eq h.shares h.records
  programs _ r hr := ⟨r, h.programs ▸ hr, rfl, fun _ => rfl⟩

theorem Spares.trans (h : s.Spares acting s') (h' : s'.Spares acting s'') :
    s.Spares acting s'' := by
  refine ⟨?_, h.assets.trans h'.assets, ?_⟩
  · intro share coin hlive hother
    exact h'.coins share coin (h.coins share coin hlive hother) hother
  · intro id r hr
    obtain ⟨r', hr', hdeployed, hsame⟩ := h.programs id r hr
    obtain ⟨r'', hr'', hdeployed', hsame'⟩ := h'.programs id r' hr'
    refine ⟨r'', hr'', hdeployed'.trans hdeployed, ?_⟩
    intro hother
    rw [hsame' hother, hsame hother]

theorem Spares.mono (hsub : acting ⊆ acting') (h : s.Spares acting s') : s.Spares acting' s' := by
  refine ⟨?_, h.assets.mono hsub, ?_⟩
  · intro share coin hlive hother
    exact h.coins share coin hlive fun hin => hother (hsub hin)
  · intro id r hr
    obtain ⟨r', hr', hdeployed, hsame⟩ := h.programs id r hr
    exact ⟨r', hr', hdeployed, fun hother => hsame fun hin => hother (hsub hin)⟩

/-- No registered program disappears. -/
theorem Spares.registered (h : s.Spares acting s') : s.registered ⊆ s'.registered := by
  intro id hid
  obtain ⟨r, hr⟩ := mem_keys_iff.mp hid
  obtain ⟨r', hr', _⟩ := h.programs id r hr
  exact mem_keys_iff.mpr ⟨r', hr'⟩

end LedgerState

end

section
variable [Crypto]

/-! ## Invocations -/

/-- An asset call acts for its actor only. -/
theorem AssetState.apply_spares {call : AssetCall} {context : ExecutionContext} {s s' : AssetState}
    {journal : AssetJournal} (h : AssetState.apply call context s = (.ok journal, s')) :
    s.Spares {context.actor.programId} s' := by
  obtain ⟨plan, s₁, hplan, hexec, _, rfl⟩ := AssetState.apply_ok h
  refine ⟨?_, ?_⟩
  · intro id share hlive hother
    have hin : id ∉ plan.inputIds := by
      intro hmem
      obtain ⟨e, he, rfl⟩ := mem_map.mp hmem
      obtain ⟨hget, _, howner⟩ := hplan.inputs_live e he
      obtain rfl : e.2 = share := Option.some.inj (hget.symm.trans hlive)
      exact hother (congrArg Owner.programId howner)
    have hnew : id ∉ (plan.created context.commitment).map Prod.fst := by
      intro hmem
      have hfree := hplan.insertable.2.2 id hmem
      rw [get?_eraseAll, if_neg hin, hlive] at hfree
      cases hfree
    exact (hexec.shares_of_notMem hin hnew).trans hlive
  · intro asset r hr
    show ∃ r', s₁.records.get? asset = some r' ∧ _
    rw [hexec.records, get?_insert]
    by_cases hasset : asset = plan.asset
    · subst hasset
      rw [if_pos rfl]
      refine ⟨plan.record, rfl, ?_⟩
      have haccounts := hplan.accounts
      cases call with
      | register c =>
        obtain ⟨_, _, _, _, _, hnone, _⟩ := haccounts
        rw [hr] at hnone
        cases hnone
      | mint c =>
        obtain ⟨hsame, _, old, hold, hauthority, _, _, _, _, _, hrecord, _⟩ := haccounts
        rw [← hsame, hr, Option.some.injEq] at hold
        subst hold
        refine ⟨by rw [hrecord], ?_⟩
        intro hother
        exact absurd (congrArg Owner.programId hauthority) hother
      | transfer c =>
        obtain ⟨hsame, hrecord, _⟩ := haccounts
        rw [← hsame, hr, Option.some.injEq] at hrecord
        rw [← hrecord]
        exact ⟨rfl, fun _ => rfl⟩
      | burn c =>
        obtain ⟨hsame, _, _, _, _, _, ⟨old, hold, _, _, hrecord⟩, _⟩ := haccounts
        rw [← hsame, hr, Option.some.injEq] at hold
        subst hold
        rw [hrecord]
        exact ⟨rfl, fun _ => rfl⟩
    · rw [if_neg hasset]
      exact ⟨r, hr, rfl, fun _ => rfl⟩

namespace Engine

variable {ctx : CallContext} {start : LedgerState} {e e' : Engine}

/-- The engine so far acted for the programs it entered; the coins are in `Effects`. -/
structure Spares (start : LedgerState) (e : Engine) : Prop where
  assets : start.assets.Spares {id | id ∈ e.entered} e.state.assets
  programs : ∀ id r, start.programs.programs.get? id = some r →
    ∃ r', e.state.programs.programs.get? id = some r' ∧ r'.deployed = r.deployed ∧
      (id ∉ e.entered → r' = r)

omit [Crypto] in
theorem spares_start (s : LedgerState) : Spares s (.start s) :=
  ⟨.of_eq rfl rfl, fun _ r hr => ⟨r, hr, rfl, fun _ => rfl⟩⟩

omit [Crypto] in
/-- A program that was entered can rewrite its own record. -/
theorem Spares.insert (h : Spares start e) {id : ProgramId} {record record' : ProgramRecord}
    (hid : id ∈ e.entered) (hget : e.state.programs.programs.get? id = some record)
    (hdeployed : record'.deployed = record.deployed) :
    ∀ id' r, start.programs.programs.get? id' = some r →
      ∃ r', (e.state.programs.programs.insert id record').get? id' = some r' ∧
        r'.deployed = r.deployed ∧ (id' ∉ e.entered → r' = r) := by
  intro id' r hr
  obtain ⟨r', hr', hdeployed', hsame⟩ := h.programs id' r hr
  rw [get?_insert]
  by_cases heq : id' = id
  · subst heq
    obtain rfl : record = r' := Option.some.inj (hget.symm.trans hr')
    rw [if_pos rfl]
    exact ⟨record', rfl, hdeployed.trans hdeployed', fun hother => absurd hid hother⟩
  · rw [if_neg heq]
    exact ⟨r', hr', hdeployed', hsame⟩

theorem Spares.step (h : Spares start e) (hstep : Step ctx e e') : Spares start e' := by
  cases hstep with
  | cached hcached =>
    obtain ⟨_, _, _, _, rfl⟩ := hcached
    exact ⟨h.assets, h.programs⟩
  | action _ | leave | coin _ _ _ _ _ => exact ⟨h.assets, h.programs⟩
  | enter _ _ =>
    refine ⟨h.assets.mono fun _ => mem_append_left _, ?_⟩
    intro id r hr
    obtain ⟨r', hr', hdeployed, hsame⟩ := h.programs id r hr
    exact ⟨r', hr', hdeployed, fun hother => hsame fun hin => hother (mem_append_left _ hin)⟩
  | asset hid _ happly =>
    refine ⟨h.assets.trans ((AssetState.apply_spares happly).mono ?_), h.programs⟩
    exact Set.singleton_subset_iff.mpr hid
  | setState hid hget _ => exact ⟨h.assets, h.insert hid hget rfl⟩
  | store hid hget _ _ _ _ => exact ⟨h.assets, h.insert hid hget rfl⟩

theorem Spares.steps (h : Spares start e) (hsteps : Steps ctx e e') : Spares start e' := by
  induction hsteps with
  | refl => exact h
  | tail _ hstep ih => exact ih.step hstep

end Engine

variable {s s' : LedgerState} {chain : ChainContext} {height : Height} {miner : ProgramId}
  {c : AuthorizationCommitment} {staged staged' : Staged}

variable {tx : AuthorizedProgramInvocation} {effect : LedgerState.CallEffect}

theorem vm_spares {height : U64} {applied : AppliedVm} (hs : s.Sound)
    (h : applyVm s tx height c systemApplications = .ok (applied, s')) :
    s.Spares {id | id ∈ applied.entered} s' := by
  have heffect := applyVm_effect hs h
  obtain ⟨e, value, hsteps, hreport, rfl⟩ := Engine.applyVm_steps h
  have hspares := (Engine.spares_start s).steps hsteps
  simp only [Engine.report, bind_eq_ok, return_eq_ok] at hreport
  obtain ⟨_, _, _, _, rfl⟩ := hreport
  refine ⟨?_, hspares.assets, hspares.programs⟩
  intro share coin hlive hother
  refine heffect.net.now_of_start hlive ?_
  intro hconsumed
  obtain ⟨id, hid, howner⟩ := heffect.owned _ hconsumed
  exact hother (by rw [show coin.owner = .program id from howner]; exact hid)

/-! ## Operations -/

namespace BlockOperation

def signer : BlockOperation → ProgramId
  | .programCall tx => tx.signer
  | .deployProgram signed => signed.deploy.owner

def authorization : BlockOperation → AccountAuthorization
  | .programCall tx => tx.authorization
  | .deployProgram signed => signed.authorization

/-- The programs that the invocation of an operation enters. -/
def entered (chain : ChainContext) (height : Height) (s : LedgerState) (op : BlockOperation) :
    Set ProgramId :=
  {id | ∃ tx c applied s', op = .programCall tx ∧ op.commitment chain = .ok c ∧
    applyVm s tx height c systemApplications = .ok (applied, s') ∧ id ∈ applied.entered}

def acting (chain : ChainContext) (height : Height) (s : LedgerState) (op : BlockOperation) :
    Set ProgramId :=
  insert op.signer (op.entered chain height s)

/-- The authorization of the operation was accepted for its signer and its commitment. -/
def Authorized (chain : ChainContext) (op : BlockOperation) : Prop :=
  ∃ c, op.commitment chain = .ok c ∧ op.authorization.verifyCommitment op.signer c = true

/-- The signers of authorized operations. -/
def signers (chain : ChainContext) (ops : List BlockOperation) : Set ProgramId :=
  {id | ∃ op ∈ ops, op.Authorized chain ∧ op.signer = id}

theorem signers_mono {ops ops' : List BlockOperation} (h : ops ⊆ ops') :
    signers chain ops ⊆ signers chain ops' := by
  intro id hid
  obtain ⟨op, hop, hsigned⟩ := hid
  exact ⟨op, h hop, hsigned⟩

theorem singleton_signer_subset (op : BlockOperation) : {op.signer} ⊆ op.acting chain height s :=
  Set.singleton_subset_iff.mpr (Set.mem_insert _ _)

theorem entered_subset {op : BlockOperation} (hs : s.Sound) :
    op.entered chain height s ⊆ s.registered := by
  intro id hid
  obtain ⟨tx, c, applied, s', _, _, hvm, hid⟩ := hid
  exact mem_keys_iff.mpr (contains_eq_true_iff.mp ((applyVm_effect hs hvm).registered id hid))

end BlockOperation

theorem validateProgramCall_authorized {height : U64}
    {prepared : PreparedProgramInvocation}
    (h : validateProgramCall tx chain height s systemApplications = .ok prepared) :
    (BlockOperation.programCall tx).Authorized chain := by
  simp only [validateProgramCall, bind_eq_ok, mapError_eq_ok, rejectIf_eq_ok,
    Bool.not_eq_false] at h
  obtain ⟨_, _, _, _, _, _, valid, hverify, _, rfl, _⟩ := h
  unfold AuthorizedProgramInvocation.verifyAuthorizations at hverify
  split_ifs at hverify
  · simp only [bind_eq_ok, return_eq_ok] at hverify
    obtain ⟨c, hc, hsigned⟩ := hverify
    exact ⟨c, by rw [BlockOperation.commitment, hc]; rfl, hsigned⟩
  · cases hverify

theorem validateDeploy_authorized {signed : AuthorizedDeployProgram} {prepared : PreparedDeploy}
    (h : validateDeploy signed chain height s = .ok prepared) :
    (BlockOperation.deployProgram signed).Authorized chain := by
  simp only [validateDeploy, bind_eq_ok, orError_eq_ok, rejectIf_eq_ok, Bool.not_eq_false] at h
  obtain ⟨_, _, c, hc, _, hsigned, _⟩ := h
  exact ⟨c, by rw [BlockOperation.commitment, hc]; rfl, hsigned⟩

variable {signer : ProgramId} {coins : List (CoinShare × CoinUtxo)} {intent : CoinTransition}
  {burn : Zeno}

/-- A payment takes coins of the signer only, if these are the coins it was validated with. -/
theorem Paid.spares (h : Paid s intent c miner coins burn s')
    (howned : ∀ e ∈ coins, e.2.owner = .program signer) : s.Spares {signer} s' := by
  refine ⟨?_, ?_, ?_⟩
  · intro share coin hlive hother
    refine h.netChange.now_of_start hlive ?_
    intro hspent
    exact hother (congrArg Owner.programId (howned _ hspent))
  · rw [h.assets]
    exact .of_eq rfl rfl
  · intro id r hr
    rw [h.programs]
    exact ⟨r, hr, rfl, fun _ => rfl⟩

omit [Crypto] in
theorem Spendable.not_registered {payment : CoinTransition} (h : Spendable payment signer s coins) :
    signer ∉ s.registered := by
  intro hregistered
  have hsome := contains_eq_true_iff.mpr (mem_keys_iff.mp hregistered)
  exact Bool.false_ne_true (h.unregistered.symm.trans hsome)

theorem Paid.owned {spendable : List (CoinShare × CoinUtxo)}
    {s₁ : LedgerState} (h : Paid s₁ intent c miner coins burn s')
    (hspend : Spendable intent signer s spendable)
    (hlive : ∀ e ∈ spendable, s₁.utxos.coins.get? e.1 = some e.2) :
    ∀ e ∈ coins, e.2.owner = .program signer := by
  obtain ⟨_, _, hconsume, _⟩ := h.moved
  obtain ⟨hinputs, _, hcoins, _⟩ := consumeCoins_ok hconsume
  intro e he
  have hmem : e.1 ∈ spendable.map Prod.fst := by
    rw [hspend.inputs, ← hinputs]
    exact mem_map_of_mem he
  obtain ⟨e', he', heq⟩ := mem_map.mp hmem
  have hsame : e'.2 = e.2 := by
    have := hlive e' he'
    rw [heq, hcoins e he] at this
    exact (Option.some.inj this).symm
  rw [← hsame]
  exact hspend.owned e' he'

omit [Crypto] in
theorem CallDid.coin_kept (h : CallDid s effect s') {share : CoinShare}
    {coin : CoinUtxo} (hlive : s.utxos.coins.get? share = some coin)
    (hother : coin.owner.programId ∉ s.registered) : s'.utxos.coins.get? share = some coin := by
  refine h.net.now_of_start hlive ?_
  intro hconsumed
  obtain ⟨id, hid, howner⟩ := h.owned _ hconsumed
  apply hother
  rw [show coin.owner = .program id from howner]
  exact mem_keys_iff.mpr (contains_eq_true_iff.mp hid)

theorem applyCall_spares (hs : s.Sound)
    (hc : (BlockOperation.programCall tx).commitment chain = .ok c)
    (h : s.applyCall tx height c chain systemApplications = .ok (effect, s')) :
    s.Spares (BlockOperation.acting chain height s (.programCall tx)) s' := by
  rcases applyCall_cases h with
    ⟨rfl, rfl⟩ | ⟨applied, hvm, rfl⟩ | ⟨call, _, journal, assets, happly, rfl, rfl⟩
  · exact .of_same (.refl _)
  · exact (vm_spares hs hvm).mono fun id hid => .inr ⟨tx, c, applied, s', rfl, hc, hvm, hid⟩
  · refine ⟨fun _ _ hlive _ => hlive, ?_, fun _ r hr => ⟨r, hr, rfl, fun _ => rfl⟩⟩
    exact (AssetState.apply_spares happly).mono (BlockOperation.singleton_signer_subset
      (.programCall tx))

/-- What an operation may do: its authorization was verified, its signer is not a program, and
nothing is taken but from the signer and the programs that were entered. -/
structure BlockOperation.Acts (chain : ChainContext) (height : Height) (op : BlockOperation)
    (s s' : LedgerState) : Prop where
  authorized : op.Authorized chain
  unregistered : op.signer ∉ s.registered
  entered : op.entered chain height s ⊆ s.registered
  spares : s.Spares (op.acting chain height s) s'

theorem stageOperation_acts {op : BlockOperation} (hs : staged.state.Sound)
    (h : stageOperation systemApplications chain height miner staged op = .ok staged') :
    op.Acts chain height staged.state staged'.state := by
  obtain ⟨_, _, hstaged⟩ := stageOperation_by hs h
  cases hstaged with
  | @call tx _ _ _ spent _ _ s₁ _ _ hvalid hspend hcommitment hcall hdid _ hpaid _ hsame =>
    -- the signer is not a program, so the call has left its coins alone
    have hlive : ∀ e ∈ spent, s₁.utxos.coins.get? e.1 = some e.2 := by
      intro e he
      refine hdid.coin_kept (hspend.live e he) ?_
      rw [hspend.owned e he]
      exact hspend.not_registered
    have hpayment := hpaid.spares (hpaid.owned hspend hlive)
    have hc : (BlockOperation.programCall tx).commitment chain = .ok _ :=
      mapError_eq_ok.mpr hcommitment
    exact ⟨validateProgramCall_authorized hvalid, hspend.not_registered,
      BlockOperation.entered_subset hs, ((applyCall_spares hs hc hcall).trans (hpayment.mono
        (BlockOperation.singleton_signer_subset (.programCall tx)))).trans (.of_same hsame)⟩
  | @deploy signed _ _ _ _ id _ programs s₁ _ hvalid hspend _ hpaid hdeploy _ hsame =>
    have hpayment := hpaid.spares (hpaid.owned hspend hspend.live)
    have hregistered : s₁.Spares {signed.deploy.owner} { s₁ with programs } := by
      refine ⟨fun _ _ hcoin _ => hcoin, .of_eq rfl rfl, ?_⟩
      obtain ⟨record, _, hfree, _, _, rfl⟩ := deployProgram_ok hdeploy
      intro id' r hr
      rw [hpaid.programs] at hr
      have hne : id' ≠ id := by
        intro heq
        rw [heq, hfree] at hr
        cases hr
      exact ⟨r, by rw [get?_insert, if_neg hne, hr], rfl, fun _ => rfl⟩
    exact ⟨validateDeploy_authorized hvalid, hspend.not_registered,
      BlockOperation.entered_subset hs, ((hpayment.trans hregistered).trans (.of_same hsame)).mono
        (BlockOperation.singleton_signer_subset (.deployProgram signed))⟩

theorem stageEmission_spares {b : Block} {subsidy : Zeno}
    (h : stageEmission s b = .ok (subsidy, staged)) : s.Spares ∅ staged.state := by
  unfold stageEmission at h
  split_ifs at h
  · cases h
    exact .of_same (.refl s)
  · simp only [bind_eq_ok, Prod.exists, return_eq_ok, Prod.mk.injEq] at h
    obtain ⟨emission, _, journal, state, happly, _, rfl⟩ := h
    have hemitted := applyEmission_ok happly
    refine ⟨?_, ?_, ?_⟩
    · intro share coin hlive _
      have hnew : share ∉ (emissionCoins emission).map Prod.fst := by
        intro hmem
        rw [hemitted.fresh share hmem] at hlive
        cases hlive
      rw [hemitted.coins, get?_insertAll_of_notMem hnew]
      exact hlive
    · rw [hemitted.assets]
      exact .of_eq rfl rfl
    · intro id r hr
      rw [hemitted.programs]
      exact ⟨r, hr, rfl, fun _ => rfl⟩

/-- What the operations of a block may take from: their signers, and programs that are registered by
then. -/
theorem stageOperations_spares {operations : List BlockOperation} (hs : staged.state.Sound)
    (h : operations.foldlM (stageOperation systemApplications chain height miner) staged =
      .ok staged') :
    staged.state.Spares (BlockOperation.signers chain operations ∪ staged'.state.registered)
      staged'.state := by
  induction operations generalizing staged with
  | nil =>
    cases h
    exact .of_same (.refl _)
  | cons op rest ih =>
    rw [foldlM_cons, bind_eq_ok] at h
    obtain ⟨middle, hone, hrest⟩ := h
    obtain ⟨_, _, _, happlied⟩ := stageOperation_ok hs hone
    have hfirst := stageOperation_acts hs hone
    have hothers := ih happlied.sound hrest
    refine (hfirst.spares.mono ?_).trans (hothers.mono ?_)
    · apply Set.insert_subset
      · exact .inl ⟨op, mem_cons_self, hfirst.authorized, rfl⟩
      · exact fun id hid =>
          .inr (hothers.registered (hfirst.spares.registered (hfirst.entered hid)))
    · exact Set.union_subset_union_left _ (BlockOperation.signers_mono (subset_cons_self op rest))

/-! ## Blocks and histories -/

namespace Ledger

variable {l l' : Ledger} {b : Block} {trace : List (Ledger × Block)}

/-- The execution behind a commit. -/
theorem Commits.executed (hl : Consistent l) (hcommits : Commits l b l')
    (hchain : l'.chainContext = some chain) :
    ∃ executed subsidy start final, l.ExecutedBy b executed subsidy start final ∧
      executed.chainContext = chain ∧
      l'.state = executed.state := by
  obtain ⟨executed, hexecute, _, _, _, rfl⟩ :=
    applyValidatedBlock_eq_ok.mp hcommits.applyValidatedBlock
  obtain ⟨subsidy, start, final, hrun⟩ := executeBlock_ok hl.applications hl.sound hexecute
  exact ⟨executed, subsidy, start, final, hrun, Option.some.inj hchain, rfl⟩

theorem Commits.spares (hl : Consistent l) (hcommits : Commits l b l')
    (hchain : l'.chainContext = some chain) :
    l.state.Spares (BlockOperation.signers chain b.operations ∪ l'.state.registered) l'.state := by
  obtain ⟨executed, subsidy, start, final, hrun, rfl, hstate⟩ := hcommits.executed hl hchain
  have hfinal : final.state.registered = l'.state.registered := by
    unfold LedgerState.registered
    rw [hstate, hrun.same.programs]
  have hoperated := stageOperations_spares hrun.started hrun.operations
  rw [hfinal] at hoperated
  rw [hstate] at hoperated ⊢
  exact (((stageEmission_spares hrun.emission).mono (Set.empty_subset _)).trans hoperated).trans
    (.of_same hrun.same)

/-- The operations of a chain, newest block first. -/
def operationsOf (trace : List (Ledger × Block)) :
    List BlockOperation := trace.flatMap fun e => e.2.operations

/-- Every operation of a block that is committed on a reachable ledger was authorized by its signer,
and takes nothing but from the signer and from the programs it enters. -/
theorem History.operations_act (h : History l trace) (hcommits : Commits l b l')
    (hchain : l'.chainContext = some chain) :
    ∃ subsidy start, stageEmission l.state b = .ok (subsidy, start) ∧
      ∀ done op rest, b.operations = done ++ op :: rest → ∃ before after,
        done.foldlM (stageOperation systemApplications chain b.height b.minerProgramId) start =
        .ok before ∧
        stageOperation systemApplications chain b.height b.minerProgramId before op = .ok after ∧
        op.Acts chain b.height before.state after.state := by
  obtain ⟨executed, subsidy, start, final, hrun, rfl, _⟩ :=
    hcommits.executed h.backed.consistent hchain
  refine ⟨subsidy, start, hrun.emission, ?_⟩
  intro done op rest hsplit
  have hoperations := hrun.operations
  rw [hsplit, foldlM_append, bind_eq_ok] at hoperations
  obtain ⟨before, hdone, hrest⟩ := hoperations
  rw [foldlM_cons, bind_eq_ok] at hrest
  obtain ⟨after, hone, _⟩ := hrest
  have hbefore : before.state.Sound := by
    refine foldlM_invariant (fun staged : Staged => staged.state.Sound) ?_ hrun.started hdone
    intro staged staged' op _ hsound hstep
    obtain ⟨_, _, _, happlied⟩ := stageOperation_ok hsound hstep
    exact happlied.sound
  exact ⟨before, after, hdone, hone, stageOperation_acts hbefore hone⟩

/-- Along a chain of blocks nothing is taken from an owner that signed none of their operations
and is not a program. -/
theorem History.untouched_of_unsigned (h : History l trace) (hchain : l.chainContext = some chain)
    {later : List (Ledger × Block)} {p : Ledger} {earlier : List (Ledger × Block)}
    (htrace : trace = later ++ (p, b) :: earlier) :
    p.state.Spares
      (BlockOperation.signers chain (operationsOf (later ++ [(p, b)])) ∪ l.state.registered)
      l.state := by
  refine History.keeps (J := fun l trace => l.chainContext = some chain → ∀ later p b earlier,
    trace = later ++ (p, b) :: earlier → p.state.Spares
      (BlockOperation.signers chain (operationsOf (later ++ [(p, b)])) ∪ l.state.registered)
      l.state) ?_ ?_ ?_ h hchain later p b earlier htrace
  · simp
  · intro l b l' trace hl ih hcommits hchain later p b₀ earlier htrace
    have hstep := hcommits.spares hl.consistent hchain
    cases later with
    | nil =>
      cases htrace
      simpa [operationsOf] using hstep
    | cons e later =>
      obtain ⟨rfl, hrest⟩ := List.cons.inj htrace
      obtain ⟨hlinks, _, _⟩ := hcommits.links hl.consistent
      have htip : l.chain.tipHeight ≠ none := by
        cases hl with
        | nil _ _ => simp at hrest
        | cons _ hlinks' _ =>
          rw [hlinks'.chain]
          exact Option.some_ne_none _
      have hbefore := ih ((hlinks.context htip).symm.trans hchain) later p b₀ earlier hrest
      refine (hbefore.mono ?_).trans (hstep.mono ?_)
      · apply Set.union_subset_union
        · exact BlockOperation.signers_mono (subset_append_right _ _)
        · exact hstep.registered
      · exact Set.union_subset_union_left _ (BlockOperation.signers_mono (subset_append_left _ _))
  · intro l m trace hagrees ih hchain later p b₀ earlier htrace
    have hregistered : m.state.registered = l.state.registered := by
      unfold LedgerState.registered
      rw [hagrees.state.programs]
    have hm := ih (hagrees.context.symm.trans hchain) later p b₀ earlier htrace
    rw [hregistered] at hm
    exact hm.trans (.of_same hagrees.state)

end Ledger

end

section Sample

attribute [local instance] Crypto.checksum

namespace Ledger

theorem samplePaid_operation_acts :
    ∃ first b l' p chain op before after, samplePaid = .ok (first, (b, l'), p) ∧
    op ∈ b.operations ∧ BlockOperation.Acts chain b.height op before after := by
  obtain ⟨_, _, l, b, l', _, _, hsample, hhistory, hcommits, _⟩ := exists_samplePaid
  have hlength : (samplePaid.toOption.any fun p => decide (p.2.1.1.operations.length = 1)) =
      true := by
    decide +kernel
  rw [hsample] at hlength
  have hone : b.operations.length = 1 := of_decide_eq_true hlength
  obtain ⟨executed, _, _, _, _, hl'⟩ := applyValidatedBlock_eq_ok.mp hcommits.applyValidatedBlock
  obtain ⟨op, hop⟩ := length_eq_one_iff.mp hone
  obtain ⟨_, _, _, hacts⟩ := History.operations_act hhistory hcommits (by rw [hl'])
  obtain ⟨before, after, _, _, hact⟩ := hacts [] op [] hop
  exact ⟨_, b, l', _, _, op, before.state, after.state, hsample, by simp [hop], hact⟩

theorem samplePaid_spares :
    ∃ first b l' b' l'' share coin, samplePaid = .ok (first, (b, l'), (b', l'')) ∧
    l'.state.utxos.coins.get? share = some coin ∧ coin.owner = .program 5 ∧
    l''.state.utxos.coins.get? share = some coin := by
  obtain ⟨_, _, l, b, l', b', l'', hsample, hhistory, hpaid, hlast⟩ := exists_samplePaid
  have hall : (samplePaid.toOption.any fun p => (p.2.1.2.state.utxos.coins.entries.any fun e =>
      decide (e.2.owner = .program 5)) && decide (p.2.2.1.operations = [] ∧
        p.2.2.2.state.programs.programs.keys = [])) = true := by decide +kernel
  rw [hsample] at hall
  simp only [Except.toOption, Option.any_some, Bool.and_eq_true, any_eq_true, decide_eq_true_eq]
    at hall
  obtain ⟨⟨e, he, howner⟩, hnone, hkeys⟩ := hall
  obtain ⟨executed, _, _, _, _, hl''⟩ := applyValidatedBlock_eq_ok.mp hlast.applyValidatedBlock
  have hspares :=
    History.untouched_of_unsigned ((hhistory.commit hpaid).commit hlast) (by rw [hl''])
    (nil_append _).symm
  refine ⟨_, b, l', b', l'', e.1, e.2, hsample, get?_eq_some_iff.mpr he, howner, ?_⟩
  refine hspares.coins e.1 e.2 (get?_eq_some_iff.mpr he) ?_
  rw [howner]
  rintro (⟨op, hop, _⟩ | hregistered)
  · simp [operationsOf, hnone] at hop
  · change (5 : ProgramId) ∈ l''.state.programs.programs.keys at hregistered
    rw [hkeys] at hregistered
    cases hregistered

end Ledger

end Sample

end Xparq
