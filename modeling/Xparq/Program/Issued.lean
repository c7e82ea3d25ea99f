import Xparq.Program.Effects
import Mathlib.Data.Set.Function

/-!
# The coin identifiers of an invocation

A settlement derives the identifiers of its outputs from the program that settles, from the
commitment of the operation and from the action counter. `Engine.Issues` says that the
identifiers issued so far are of that kind, that none was issued twice, and that every live coin
was live before or has been issued. It is kept by every step as long as the hash does not collide
on what an invocation hashes, `vmInputs`.
-/

namespace Xparq

open Machine Outcome OrderedMap List

/-! ## Preimages -/

/-- What `CoinShare.fromOutput` hashes. -/
def outputInput (origin : Hash) (index : U32) : List Byte :=
  preimage .output (CoinShare.outputBytes origin index)

/-- What `settlementOrigin` hashes. -/
def settlementInput (id : ProgramId) (base : Hash) : List Byte :=
  preimage .assetIntent (ascii "xparq:vm-transfer:v2" ++ id.bytes ++ base.bytes)

def effectTag : String := "xparq:vm-effects:v4"

/-- What `Engine.effectCommitment` hashes. -/
def effectInput (commitment : Hash) (actions : Nat) : List Byte :=
  preimage .assetIntent (ascii effectTag ++ commitment.bytes ++ leBytes 8 actions)

theorem outputInput_injective {origin origin' : Hash} {index index' : U32}
    (h : outputInput origin index = outputInput origin' index') :
    origin = origin' ∧ index = index' := by
  obtain ⟨hfront, hindex⟩ := append_inj (preimage_injective h) (by simp)
  refine ⟨Hash.bytes_injective (append_cancel_left hfront), Fin.ext ?_⟩
  exact leBytes_injective (lt_of_lt_of_eq index.isLt (by decide))
    (lt_of_lt_of_eq index'.isLt (by decide)) hindex

theorem settlementInput_injective {id id' : ProgramId} {base base' : Hash}
    (h : settlementInput id base = settlementInput id' base') : id = id' ∧ base = base' := by
  obtain ⟨hfront, hbase⟩ := append_inj (preimage_injective h) (by simp)
  exact ⟨Hash.bytes_injective (append_cancel_left hfront), Hash.bytes_injective hbase⟩

theorem effectInput_injective {c c' : Hash} {k k' : Nat} (hk : k ≤ maxActions)
    (hk' : k' ≤ maxActions) (h : effectInput c k = effectInput c' k') : c = c' ∧ k = k' := by
  obtain ⟨hfront, hactions⟩ := append_inj (preimage_injective h) (by simp)
  have hlt : maxActions < 256 ^ 8 := by decide
  exact ⟨Hash.bytes_injective (append_cancel_left hfront),
    leBytes_injective (lt_of_le_of_lt hk hlt) (lt_of_le_of_lt hk' hlt) hactions⟩

section
variable [Crypto]

/-- What the settlements of one invocation are bound to. -/
def effectBases (commitment : Hash) : Set Hash :=
  {base | base = commitment ∨ ∃ k ≤ maxActions, base = Engine.actionOrigin effectTag commitment k}

/-- What is hashed for the identifiers that programs issue under a commitment. -/
def vmInputs (programs : Set ProgramId) (commitment : Hash) : Set (List Byte) :=
  {x | ∃ id ∈ programs, (∃ k ≤ maxActions, x = effectInput commitment k) ∨
    ∃ base ∈ effectBases commitment, x = settlementInput id base ∨
      ∃ index : U32, index.val < 2 ∧ x = outputInput (settlementOrigin id base) index}

/-- The identifiers that programs can issue under a commitment. -/
def vmCoins (programs : Set ProgramId) (commitment : Hash) : Set CoinShare :=
  {share | ∃ id ∈ programs, ∃ base ∈ effectBases commitment, ∃ index : U32, index.val < 2 ∧
    share = CoinShare.fromOutput (settlementOrigin id base) index}

variable {S : Set (List Byte)} {programs : Set ProgramId} {c c' : Hash}

theorem vmCoin_injective (hS : Set.InjOn Crypto.sha3 S) (hc : vmInputs programs c ⊆ S)
    (hc' : vmInputs programs c' ⊆ S) {id id' : ProgramId} {base base' : Hash} {index index' : U32}
    (hid : id ∈ programs) (hid' : id' ∈ programs) (hbase : base ∈ effectBases c)
    (hbase' : base' ∈ effectBases c') (hindex : index.val < 2) (hindex' : index'.val < 2)
    (h : CoinShare.fromOutput (settlementOrigin id base) index =
      CoinShare.fromOutput (settlementOrigin id' base') index') :
    id = id' ∧ base = base' ∧ index = index' := by
  have houtput := hS (hc ⟨id, hid, .inr ⟨base, hbase, .inr ⟨index, hindex, rfl⟩⟩⟩)
    (hc' ⟨id', hid', .inr ⟨base', hbase', .inr ⟨index', hindex', rfl⟩⟩⟩) h
  obtain ⟨horigin, hindexes⟩ := outputInput_injective houtput
  have hsettle := hS (hc ⟨id, hid, .inr ⟨base, hbase, .inl rfl⟩⟩)
    (hc' ⟨id', hid', .inr ⟨base', hbase', .inl rfl⟩⟩) horigin
  obtain ⟨hids, hbases⟩ := settlementInput_injective hsettle
  exact ⟨hids, hbases, hindexes⟩

theorem actionOrigin_injective (hS : Set.InjOn Crypto.sha3 S) (hc : vmInputs programs c ⊆ S)
    (hc' : vmInputs programs c' ⊆ S) (hsome : programs.Nonempty) {k k' : Nat} (hk : k ≤ maxActions)
    (hk' : k' ≤ maxActions)
    (h : Engine.actionOrigin effectTag c k = Engine.actionOrigin effectTag c' k') :
    c = c' ∧ k = k' := by
  obtain ⟨id, hid⟩ := hsome
  have heffect := hS (hc ⟨id, hid, .inl ⟨k, hk, rfl⟩⟩) (hc' ⟨id, hid, .inl ⟨k', hk', rfl⟩⟩) h
  exact effectInput_injective hk hk' heffect

/-! ## Moves -/

theorem CoinMove.live {id : ProgramId} {origin : Hash} {coins : List (CoinShare × CoinUtxo)}
    {outputs : List (Owner × Zeno)} {utxos utxos' : UtxoSet} {share : CoinShare}
    (h : CoinMove id origin coins outputs utxos utxos') (hlive : share ∈ utxos'.coins.keys) :
    share ∈ utxos.coins.keys ∨ share ∈ (outputCoins origin 0 outputs).map Prod.fst := by
  obtain ⟨mid, hconsume, hcreate⟩ := h.moved
  obtain ⟨-, -, -, hcoins, -, -⟩ := consumeCoins_ok hconsume
  obtain ⟨-, -, -, hcoins', -, -⟩ := createCoins_ok hcreate
  by_cases hout : share ∈ (outputCoins origin 0 outputs).map Prod.fst
  · exact .inr hout
  · rw [mem_keys_iff, hcoins', get?_insertAll_of_notMem hout, hcoins, get?_eraseAll] at hlive
    obtain ⟨coin, hcoin⟩ := hlive
    split_ifs at hcoin
    exact .inl (mem_keys_iff.mpr ⟨coin, hcoin⟩)

namespace Engine

/-- What the engine has issued under a commitment. -/
structure Issues (start : LedgerState) (commitment : Hash) (e : Engine) : Prop where
  nodup : e.issued.Nodup
  made : ∀ share ∈ e.issued, ∃ id ∈ e.entered, ∃ base index, index.val < 2 ∧
    share = CoinShare.fromOutput (settlementOrigin id base) index ∧
    (base = commitment ∨ ∃ k ≤ e.actions, base = actionOrigin effectTag commitment k)
  live : ∀ share ∈ e.state.utxos.coins.keys, share ∈ start.utxos.coins.keys ∨ share ∈ e.issued

theorem issues_start (s : LedgerState) : Issues s c (.start s) where
  nodup := nodup_nil
  made _ h := by cases h
  live _ h := .inl h

variable {ctx : CallContext} {start : LedgerState} {e e' : Engine}

theorem Issues.mono (h : Issues start c e) (hissued : e'.issued = e.issued)
    (hentered : e.entered ⊆ e'.entered) (hactions : e.actions ≤ e'.actions)
    (hcoins : e'.state.utxos = e.state.utxos) : Issues start c e' where
  nodup := hissued ▸ h.nodup
  made share hshare := by
    obtain ⟨id, hid, base, index, hindex, heq, hbase⟩ := h.made share (hissued ▸ hshare)
    refine ⟨id, hentered hid, base, index, hindex, heq, ?_⟩
    rcases hbase with hbase | ⟨k, hk, hbase⟩
    · exact .inl hbase
    · exact .inr ⟨k, hk.trans hactions, hbase⟩
  live share hshare := by
    rw [hcoins] at hshare
    rw [hissued]
    exact h.live share hshare

theorem Issues.step (hS : Set.InjOn Crypto.sha3 S) (hinputs : vmInputs programs ctx.commitment ⊆ S)
    (hbases : programs.Nonempty → ∀ k ≤ maxActions,
      actionOrigin effectTag ctx.commitment k ≠ ctx.commitment)
    (hentered : ∀ id ∈ e.entered, id ∈ programs) (hmetered : e.actions ≤ maxActions)
    (h : Issues start ctx.commitment e) (hstep : Step ctx e e') :
    Issues start ctx.commitment e' := by
  cases hstep with
  | cached hcached =>
    obtain ⟨_, _, _, _, rfl⟩ := hcached
    exact h.mono rfl (List.Subset.refl _) le_rfl rfl
  | action _ => exact h.mono rfl (List.Subset.refl _) (Nat.le_succ _) rfl
  | enter _ _ => exact h.mono rfl (subset_append_left _ _) le_rfl rfl
  | leave | asset _ _ _ | setState _ _ _ | store _ _ _ _ _ _ =>
    exact h.mono rfl (List.Subset.refl _) le_rfl rfl
  | @coin id legacyRoot coins outputs utxos origin hid horigin hmove hactions hroot =>
    have hnew : ∀ share ∈ (outputCoins origin 0 outputs).map Prod.fst, ∃ index : U32,
        index.val < 2 ∧
        share = CoinShare.fromOutput origin index := by
      intro share hshare
      obtain ⟨index, hindex, heq⟩ := exists_output_index hshare
      exact ⟨index, lt_of_lt_of_le hindex hmove.few, heq⟩
    have hbase : ∀ base, base = effectCommitment ctx legacyRoot (e.actions + 1) →
        base = ctx.commitment ∨ ∃ k ≤ e.actions + 1,
          base = actionOrigin effectTag ctx.commitment k := by
      rintro base rfl
      cases legacyRoot with
      | true => exact .inl rfl
      | false => exact .inr ⟨e.actions + 1, le_rfl, rfl⟩
    refine ⟨?_, ?_, ?_⟩
    · obtain ⟨mid, _, hcreate⟩ := hmove.moved
      refine h.nodup.append (createCoins_ok hcreate).2.1 ?_
      intro share hold hshare
      obtain ⟨index, hindex, heq⟩ := hnew share hshare
      obtain ⟨id', hid', base', index', hindex', heq', hbase'⟩ := h.made share hold
      cases legacyRoot with
      | true => rw [hroot rfl] at hold; cases hold
      | false =>
        subst horigin
        have hbound : base' ∈ effectBases ctx.commitment := by
          rcases hbase' with hbase' | ⟨k, hk, hbase'⟩
          · exact .inl hbase'
          · exact .inr ⟨k, hk.trans hmetered, hbase'⟩
        have hsome : programs.Nonempty := ⟨id, hentered id hid⟩
        obtain ⟨_, hsame, _⟩ :=
          vmCoin_injective hS hinputs hinputs (hentered id hid) (hentered id' hid')
          (.inr ⟨e.actions + 1, hactions, rfl⟩) hbound hindex hindex' (heq.symm.trans heq')
        rcases hbase' with rfl | ⟨k, hk, rfl⟩
        · exact hbases hsome _ hactions hsame
        · obtain ⟨_, hcount⟩ :=
            actionOrigin_injective hS hinputs hinputs hsome hactions (hk.trans hmetered) hsame
          omega
    · intro share hshare
      rcases mem_append.mp hshare with hold | hshare
      · obtain ⟨id', hid', base', index', hindex', heq', hbase'⟩ := h.made share hold
        refine ⟨id', hid', base', index', hindex', heq', ?_⟩
        rcases hbase' with hbase' | ⟨k, hk, hbase'⟩
        · exact .inl hbase'
        · exact .inr ⟨k, Nat.le_succ_of_le hk, hbase'⟩
      · obtain ⟨index, hindex, heq⟩ := hnew share hshare
        rw [horigin] at heq
        exact ⟨id, hid, _, index, hindex, heq, hbase _ rfl⟩
    · intro share hshare
      rcases hmove.live hshare with hlive | hout
      · rcases h.live share hlive with hstart | hold
        · exact .inl hstart
        · exact .inr (mem_append_left _ hold)
      · exact .inr (mem_append_right _ hout)

/-- Along the steps of a call: identifiers are derived from the numbers of its actions, which never
repeat. -/
theorem Issues.steps (ctx : CallContext) (hS : Set.InjOn Crypto.sha3 S)
    (hinputs : vmInputs programs ctx.commitment ⊆ S)
    (hbases : programs.Nonempty → ∀ k ≤ maxActions,
      actionOrigin effectTag ctx.commitment k ≠ ctx.commitment)
    (hknown : ∀ id record, start.programs.programs.get? id = some record → id ∈ programs)
    (hs : start.Sound) (hsteps : Steps ctx (.start start) e) : Issues start ctx.commitment e := by
  induction hsteps with
  | refl => exact issues_start start
  | @tail m _ hmany hstep ih =>
    refine ih.step hS hinputs hbases ?_ ((metered_start start).steps hmany).actions_le hstep
    intro id hid
    obtain ⟨record, hrecord⟩ := ((effects_start hs).steps hmany).registered id hid
    exact hknown id record hrecord

end Engine

theorem applyVm_issues {s s' : LedgerState} {tx : AuthorizedProgramInvocation} {height : U64}
    {applied : AppliedVm} (hS : Set.InjOn Crypto.sha3 S) (hinputs : vmInputs programs c ⊆ S)
    (hbases : programs.Nonempty → ∀ k ≤ maxActions, Engine.actionOrigin effectTag c k ≠ c)
    (hknown : ∀ id record, s.programs.programs.get? id = some record → id ∈ programs) (hs : s.Sound)
    (h : applyVm s tx height c systemApplications = .ok (applied, s')) :
    applied.issued.Nodup ∧ (∀ share ∈ applied.issued, share ∈ vmCoins programs c) ∧
      ∀ share ∈ s'.utxos.coins.keys, share ∈ s.utxos.coins.keys ∨ share ∈ applied.issued := by
  obtain ⟨e, value, hsteps, hreport, rfl⟩ := Engine.applyVm_steps h
  have hissues : Engine.Issues s c e :=
    Engine.Issues.steps ⟨systemApplications, tx.signer, height, c⟩ hS hinputs hbases
      hknown hs hsteps
  have hmetered := (Engine.metered_start s).steps hsteps
  have heffects := (Engine.effects_start hs).steps hsteps
  have hissued : applied.issued = e.issued := by
    simp only [Engine.report, bind_eq_ok, return_eq_ok] at hreport
    obtain ⟨_, _, _, _, rfl⟩ := hreport
    rfl
  rw [hissued]
  refine ⟨hissues.nodup, ?_, hissues.live⟩
  intro share hshare
  obtain ⟨id, hid, base, index, hindex, heq, hbase⟩ := hissues.made share hshare
  obtain ⟨record, hrecord⟩ := heffects.registered id hid
  have hbound : base ∈ effectBases c := by
    rcases hbase with hbase | ⟨k, hk, hbase⟩
    · exact .inl hbase
    · exact .inr ⟨k, hk.trans hmetered.actions_le, hbase⟩
  exact ⟨id, hknown id record hrecord, base, hbound, index, hindex, heq⟩

end

end Xparq
