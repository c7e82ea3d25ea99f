import Xparq.Wallet.Spend
import Xparq.Ledger.Applied

/-!
# The exact burn of a signed spend

Consensus accepts a payment only if what it leaves unspent is exactly the burn that its size
and its state growth call for. A spend that the wallet signs leaves exactly that: the fee loop
returns a transaction built for its own size, a selection counts the change output exactly if
there is change, and an explicit spend that counts a change output it does not create is never
the one the loop returns.
-/

namespace Xparq

open Machine Outcome List

/-! ## Selections -/

namespace SelectionRequest

/-- The selected total is what is required, the growth and archival burn and the change. -/
def Pays (r : SelectionRequest) (s : Selection) : Prop :=
  ∃ growth : Zeno, StateTransitionWeight.stateGrowthBurn
      ⟨r.createdCoinWithoutChange.val + (if 0 < s.change then 1 else 0),
        s.inputs.length + r.vmConsumedCoinUtxos.val, r.createdStateWeight.val⟩ = .ok growth ∧
    s.total.val = r.baseRequired.val + (growth.val + r.archivalBurn.val) + s.change.val

/-- A selection takes a prefix of the candidates and covers the request exactly. -/
structure Covers (r : SelectionRequest) (candidates : List AccountUtxo) (s : Selection) : Prop where
  taken : ∃ chosen, chosen <+: candidates ∧
    chosen.map (fun utxo => CoinShare.fromStr utxo.id) = s.inputs.map some ∧
    (chosen.map fun utxo => utxo.amount.val).sum = s.total.val
  paid : r.Pays s

variable {r : SelectionRequest} {selected : List CoinShare} {total : U64} {s : Selection}

theorem settle_ok {hasChange : Bool} (h : r.settle selected total hasChange = .ok (some s)) :
    s.inputs = selected ∧ s.total = total ∧ r.Pays s := by
  simp only [settle, bind_eq_ok, okOr_eq_ok, mapError_eq_ok, checkedAdd_eq_some, ofNat?_eq_some,
    return_eq_ok] at h
  obtain ⟨created, hcreated, count, hcount, consumed, hconsumed, growth, hgrowth, burn, hburn,
    required, hrequired, h⟩ := h
  -- without change the total is exactly what is required, with change it is more
  have hchange : s = ⟨selected, total, burn, total - required⟩ ∧ required ≤ total ∧
      (0 < total - required ↔ hasChange = true) := by
    cases hasChange with
    | false =>
      simp only [Bool.false_eq_true, if_false, Option.ite_none_right_eq_some] at h
      obtain ⟨rfl, h⟩ := h
      exact ⟨(Option.some.inj h).symm, le_rfl, by simp⟩
    | true =>
      simp only [if_true, Option.ite_none_right_eq_some] at h
      obtain ⟨hlt, h⟩ := h
      refine ⟨(Option.some.inj h).symm, hlt.le, iff_of_true ?_ rfl⟩
      rw [Fin.lt_def, Fin.sub_val_of_le hlt.le]
      exact Nat.sub_pos_of_lt hlt
  obtain ⟨rfl, hle, hpos⟩ := hchange
  refine ⟨rfl, rfl, growth, ?_, ?_⟩
  · rw [← hgrowth, hconsumed, hcount, hcreated]
    cases hasChange with
    | false => rw [if_neg fun hp => Bool.false_ne_true (hpos.mp hp), if_neg Bool.false_ne_true]; rfl
    | true => rw [if_pos (hpos.mpr rfl), if_pos rfl]; rfl
  · have := Fin.le_def.mp hle
    simp only [Fin.sub_val_of_le hle]
    omega

theorem settleAny_ok (h : r.settleAny selected total = .ok (some s)) :
    ∃ hasChange, r.settle selected total hasChange = .ok (some s) := by
  rw [settleAny, bind_eq_ok] at h
  obtain ⟨found, hfound, h⟩ := h
  cases found with
  | none => exact ⟨true, h⟩
  | some selection =>
    cases h
    exact ⟨false, hfound⟩

theorem select_ok {taken rest : List AccountUtxo}
    (hids : taken.map (fun utxo => CoinShare.fromStr utxo.id) = selected.map some)
    (htotal : (taken.map fun utxo => utxo.amount.val).sum = total.val)
    (h : r.select rest selected total = .ok (some s)) : r.Covers (taken ++ rest) s := by
  induction rest generalizing taken selected total with
  | nil => cases h
  | cons utxo rest ih =>
    simp only [select, bind_eq_ok, okOr_eq_ok, checkedAdd_eq_some] at h
    obtain ⟨id, hid, total', htotal', found, hfound, h⟩ := h
    have hids' : (taken ++ [utxo]).map (fun utxo => CoinShare.fromStr utxo.id) =
        (selected ++ [id]).map some := by
      simp [hids, hid]
    have hsum : ((taken ++ [utxo]).map fun utxo => utxo.amount.val).sum = total'.val := by
      simp [htotal, htotal']
    cases found with
    | none =>
      rw [append_cons]
      exact ih hids' hsum h
    | some selection =>
      cases h
      obtain ⟨hasChange, hsettle⟩ := settleAny_ok hfound
      obtain ⟨hinputs, hs, hpaid⟩ := settle_ok hsettle
      have htaken : taken ++ [utxo] <+: taken ++ utxo :: rest := ⟨rest, by simp⟩
      exact ⟨⟨taken ++ [utxo], htaken, hinputs ▸ hids', hs ▸ hsum⟩, hpaid⟩

end SelectionRequest

variable {l : List Byte} {tx : AuthorizedProgramInvocation} {r : SelectionRequest} {size : Nat}

variable {candidates : List AccountUtxo} {s : Selection} {activeSalt : AccountSalt}
  {accounts : List WalletAccountInputCandidates}

theorem selectInputsFromCandidates_ok (h : selectInputsFromCandidates candidates r = .ok (some s)) :
    r.Covers candidates s := by
  have hcovers := SelectionRequest.select_ok map_nil rfl h
  rwa [nil_append] at hcovers

/-- Whatever account is best at the end was best when it was looked at. -/
theorem bestAccount_ok {best best' : Option (WalletAccountInputCandidates × Selection)}
    {balances balances' : List (ProgramId × U64)}
    (P : WalletAccountInputCandidates × Selection → Prop)
    (hP : ∀ account ∈ accounts, ∀ s, r.Covers account.utxos s → P (account, s))
    (hbest : ∀ held, best = some held → P held)
    (h : bestAccount r activeSalt accounts best balances = .ok (best', balances')) :
    ∀ held, best' = some held → P held := by
  induction accounts generalizing best balances with
  | nil =>
    cases h
    exact hbest
  | cons account rest ih =>
    simp only [bestAccount, bind_eq_ok] at h
    obtain ⟨available, -, found, hfound, h⟩ := h
    have hrest := fun account' hmem => hP account' (mem_cons_of_mem _ hmem)
    cases found with
    | none => exact ih hrest hbest h
    | some selection =>
      refine ih hrest ?_ h
      intro held hheld
      have hnew := hP account mem_cons_self selection (selectInputsFromCandidates_ok hfound)
      unfold betterAccount at hheld
      split at hheld
      · cases hheld
        exact hnew
      · split at hheld
        · cases hheld
          exact hnew
        · exact hbest held hheld

theorem selectWalletAccountInputs_ok {account : WalletAccountInputCandidates}
    (h : selectWalletAccountInputs accounts r activeSalt = .ok (account, s)) :
    account ∈ accounts ∧ r.Covers account.utxos s := by
  simp only [selectWalletAccountInputs, bind_eq_ok, okOr_eq_ok] at h
  obtain ⟨⟨best, balances⟩, hbest, hsome⟩ := h
  refine bestAccount_ok (fun held => held.1 ∈ accounts ∧ r.Covers held.1.utxos held.2) ?_ ?_ hbest
    _ hsome
  · intro account hmem s hcovers
    exact ⟨hmem, hcovers⟩
  · intro held hnone
    cases hnone

/-! ## The fee loop -/

/-- The loop returns a transaction that was built for its own size. What every unfinished
round keeps of its parameters holds of the last ones. -/
theorem feeRounds_ok {σ : Type}
    {build : σ → U64 → U64 → Except WalletError (AuthorizedProgramInvocation × σ)}
    {feeRate archivalRate : U64} (P : σ → U64 → U64 → Prop)
    (hP : ∀ s fee archival tx s' size, P s fee archival → build s fee archival = .ok (tx, s') →
      envelopeLength tx = .ok size → ∀ fee' archival' : U64, fee'.val = size * feeRate.val →
      archival'.val = size * archivalRate.val → P s' fee' archival') {rounds : Nat} {s : σ}
    {fee archival : U64} (hs : P s fee archival)
    (h : feeRounds build feeRate archivalRate rounds s fee archival = .ok tx) :
    ∃ s fee archival s' size, P s fee archival ∧ build s fee archival = .ok (tx, s') ∧
      envelopeLength tx = .ok size ∧ fee.val = size * feeRate.val ∧
      archival.val = size * archivalRate.val := by
  induction rounds generalizing s fee archival with
  | zero => cases h
  | succ rounds ih =>
    simp only [feeRounds, bind_eq_ok, mapError_eq_ok, okOr_eq_ok, Option.bind_eq_some_iff,
      ofNat?_eq_some, checkedMul_eq_some] at h
    obtain ⟨⟨built, s'⟩, hbuild, size, hsize, fee', ⟨size', hsize', hfee⟩, archival',
      ⟨size'', hsize'', harchival⟩, h⟩ := h
    rw [hsize'] at hfee
    rw [hsize''] at harchival
    split at h
    next heq =>
      cases h
      obtain ⟨rfl, rfl⟩ := heq
      exact ⟨s, _, _, s', size, hs, hbuild, hsize, hfee, harchival⟩
    next => exact ih (hP s fee archival built s' size hs hbuild hsize fee' archival'
      hfee harchival) h

/-! ## The size of a transfer -/

/-- Keys and signatures have the size their scheme fixes, so that only the numbers of inputs
and outputs matter. -/
def transferSize (key signature : AccountSignatureScheme) (inputs outputs : Nat) : Nat :=
  133 + key.publicKeySize + signature.signatureSize + 32 * inputs + 41 * outputs

theorem encodeLen_length {n : Nat} (h : encodeLen n = some l) : l.length = 4 := by
  rw [encodeLen, Option.ite_none_right_eq_some] at h
  obtain ⟨-, h⟩ := h
  rw [← Option.some.inj h, length_leBytes]

theorem encodeBytes_length {bytes : List Byte} (h : encodeBytes bytes = some l) :
    l.length = 4 + bytes.length := by
  rw [encodeBytes, Option.map_eq_some_iff] at h
  obtain ⟨count, hcount, rfl⟩ := h
  rw [length_append, encodeLen_length hcount]

theorem SchemeBytes.encode_length {size : AccountSignatureScheme → Nat} {b : SchemeBytes}
    (h : b.encode size = some l) : l.length = 5 + size b.scheme := by
  rw [SchemeBytes.encode, Option.ite_none_right_eq_some, Option.map_eq_some_iff] at h
  obtain ⟨hsize, bytes, hbytes, rfl⟩ := h
  rw [length_cons, encodeBytes_length hbytes, hsize]
  omega

theorem CoinTransition.encode_length {t : CoinTransition} (h : t.encode = some l) :
    l.length = 48 + 32 * t.inputs.length + 41 * t.outputs.length := by
  simp only [CoinTransition.encode, bind_eq_some, return_eq_some] at h
  obtain ⟨inputs, hinputs, outputs, houtputs, rfl⟩ := h
  have hin : (t.inputs.map Hash.bytes).flatten.length = 32 * t.inputs.length := by
    simp [length_flatten, Function.comp_def, Nat.mul_comm]
  have hout : (t.outputs.map CoinOutput.encode).flatten.length = 41 * t.outputs.length := by
    simp [length_flatten, Function.comp_def, Nat.mul_comm]
  simp only [length_append, Hash.length_bytes, encodeLen_length hinputs,
    encodeLen_length houtputs, hin, hout, length_leBytes]
  omega

theorem AccountAuthorization.encode_length {a : AccountAuthorization} (h : a.encode = some l) :
    l.length = 42 + a.publicKey.scheme.publicKeySize + a.signature.scheme.signatureSize := by
  simp only [AccountAuthorization.encode, bind_eq_some, return_eq_some] at h
  obtain ⟨key, hkey, signature, hsignature, rfl⟩ := h
  simp only [length_append, Hash.length_bytes, SchemeBytes.encode_length hkey,
    SchemeBytes.encode_length hsignature]
  omega

theorem envelopeLength_eq (h : envelopeLength tx = .ok size) :
    ∃ bytes, tx.encode = some bytes ∧ size = bytes.length + 1 ∧ size < 2 ^ 64 := by
  simp only [envelopeLength, canonicalLength, okOr_eq_ok, Option.map_eq_some_iff,
    Option.bind_eq_some_iff, ofNat?_eq_some] at h
  obtain ⟨n, ⟨_, ⟨bytes, hbytes, rfl⟩, hn⟩, rfl⟩ := h
  exact ⟨bytes, hbytes, hn, n.isLt⟩

theorem canonicalLen_of_envelopeLength (h : envelopeLength tx = .ok size) :
    (BlockOperation.programCall tx).canonicalLen = .ok size := by
  obtain ⟨bytes, hbytes, hsize, hlt⟩ := envelopeLength_eq h
  rw [BlockOperation.canonicalLen, BlockOperation.encode, hbytes, canonicalLength, okOr_eq_ok]
  exact Option.map_eq_some_iff.mpr ⟨⟨size, hlt⟩, ofNat?_eq_some.mpr hsize, rfl⟩

theorem envelopeLength_transfer (hcall : tx.call = transferCall)
    (h : envelopeLength tx = .ok size) :
    size = transferSize tx.authorization.publicKey.scheme tx.authorization.signature.scheme
      tx.payment.inputs.length tx.payment.outputs.length := by
  obtain ⟨bytes, hbytes, hsize, -⟩ := envelopeLength_eq h
  simp only [AuthorizedProgramInvocation.encode, bind_eq_some, return_eq_some] at hbytes
  obtain ⟨call, hc, payment, hpayment, authorization, hauthorization, rfl⟩ := hbytes
  have hlength : call.length = 10 := by
    rw [hcall] at hc
    cases hc
    rfl
  simp only [length_append, Hash.length_bytes, hlength, CoinTransition.encode_length hpayment,
    AccountAuthorization.encode_length hauthorization] at hsize
  rw [hsize, transferSize]
  omega

/-! ## One round -/

section
variable [Crypto]

theorem AccountWallet.signSpendIntent_ok {w : AccountWallet} {chain : ChainContext}
    {legacySalt : Option Hash} {payment : CoinTransition} {tx : AuthorizedProgramInvocation}
    (h : w.signSpendIntent chain legacySalt payment = .ok tx) :
    tx.call = transferCall ∧ tx.payment = payment ∧ tx.authorization.publicKey = w.publicKey ∧
      tx.authorization.signature.scheme = w.signingSeed.scheme := by
  have hsigned : ∃ signer salt,
      w.signProgramCallAs chain transferCall payment signer salt = .ok tx := by
    cases legacySalt with
    | none =>
      simp only [signSpendIntent, signXpqTransfer, bind_eq_ok] at h
      obtain ⟨-, -, h⟩ := h
      exact ⟨_, _, h⟩
    | some salt =>
      simp only [signSpendIntent, signXpqTransferWithLegacySalt, bind_eq_ok] at h
      obtain ⟨-, -, signer, -, -, -, h⟩ := h
      exact ⟨_, _, h⟩
  obtain ⟨signer, salt, hsigned⟩ := hsigned
  simp only [signProgramCallAs, bind_eq_ok] at hsigned
  obtain ⟨commitment, -, hsigned⟩ := hsigned
  cases hsigned
  exact ⟨rfl, rfl, rfl, rfl⟩

namespace SpendContext

variable {c : SpendContext} {chain : ChainContext} {o : SpendOptions} {w w' : AccountWallet}
  {fee archival : U64} {tx : AuthorizedProgramInvocation}

theorem build_ok (h : c.build chain o w fee archival = .ok (tx, w')) :
    ∃ p, c.plan o w fee archival = .ok (p, w') ∧ tx.call = transferCall ∧
      tx.payment.inputs = p.selected ∧ tx.payment.outputs = c.planned p ∧
      tx.payment.charges.minerFee = fee ∧ tx.authorization.publicKey = w'.publicKey ∧
      tx.authorization.signature.scheme = w'.signingSeed.scheme := by
  simp only [build, bind_eq_ok, mapError_eq_ok, CoinTransition.coinWithCharges] at h
  obtain ⟨⟨p, w''⟩, hplan, intent, ⟨-, -, hintent⟩, signed, hsigned, h⟩ := h
  cases h
  cases hintent
  obtain ⟨hcall, hpayment, hkey, hscheme⟩ := AccountWallet.signSpendIntent_ok hsigned
  exact ⟨p, hplan, hcall, by rw [hpayment], by rw [hpayment], by rw [hpayment], hkey, hscheme⟩

omit [Crypto] in
theorem length_planned (p : SpendPlan) :
    (c.planned p).length = c.outputs.length + if 0 < p.change then 1 else 0 := by
  rw [planned, length_append]
  split <;> rfl

variable {size : Nat} {p : SpendPlan}

theorem size_of_build (h : c.build chain o w fee archival = .ok (tx, w'))
    (hsize : envelopeLength tx = .ok size) :
    ∃ p, c.plan o w fee archival = .ok (p, w') ∧
      size = transferSize w'.publicKey.scheme w'.signingSeed.scheme p.selected.length
        (c.outputs.length + if 0 < p.change then 1 else 0) := by
  obtain ⟨p, hplan, hcall, hinputs, houtputs, -, hkey, hscheme⟩ := build_ok h
  have hlength := envelopeLength_transfer hcall hsize
  rw [hkey, hscheme, hinputs, houtputs, length_planned] at hlength
  exact ⟨p, hplan, hlength⟩

/-! ## Automatic selection -/

/-- Coins that the context offers for selection. -/
def Offers (c : SpendContext) (candidates : List AccountUtxo) : Prop :=
  c.legacyCandidates = some candidates ∨
    ∃ accounts, c.accountCandidates = some accounts ∧ ∃ account ∈ accounts,
      account.utxos = candidates

theorem plan_automatic (hauto : o.inputs = []) (h : c.plan o w fee archival = .ok (p, w')) :
    ∃ candidates chosen, c.Offers candidates ∧ chosen <+: candidates ∧
      chosen.map (fun utxo => CoinShare.fromStr utxo.id) = p.selected.map some ∧
      ∃ growth : Zeno, StateTransitionWeight.stateGrowthBurn
        ⟨c.createdCoinWithoutChange.val + (if 0 < p.change then 1 else 0), p.selected.length, 0⟩ =
          .ok growth ∧
      (chosen.map fun utxo => utxo.amount.val).sum =
        c.totalAmount.val + fee.val + (growth.val + archival.val) + p.change.val ∧
      growth.val + archival.val < 2 ^ 64 := by
  simp only [plan, bind_eq_ok, okOr_eq_ok, checkedAdd_eq_some, if_pos hauto] at h
  obtain ⟨required, hrequired, h⟩ := h
  have hcovered : ∃ candidates s, c.Offers candidates ∧
      (c.request required archival).Covers candidates s ∧
      p.selected = s.inputs ∧ p.change = s.change := by
    split at h
    · simp only [exceptMap_eq_ok, planLegacy, bind_eq_ok, okOr_eq_ok] at h
      obtain ⟨_, ⟨candidates, hcandidates, _, -, found, hfound, s, rfl, hp⟩, h⟩ := h
      cases hp
      cases h
      exact ⟨candidates, s, .inl hcandidates, selectInputsFromCandidates_ok hfound, rfl, rfl⟩
    · simp only [planAccount, bind_eq_ok, okOr_eq_ok] at h
      obtain ⟨accounts, haccounts, ⟨account, s⟩, hselect, _, -, h⟩ := h
      cases h
      obtain ⟨hmem, hcovers⟩ := selectWalletAccountInputs_ok hselect
      exact ⟨account.utxos, s, .inr ⟨accounts, haccounts, account, hmem, rfl⟩, hcovers, rfl, rfl⟩
  obtain ⟨candidates, s, hoffers, ⟨⟨chosen, htaken, hids, hsum⟩, growth, hgrowth, hpaid⟩, hsel,
    hch⟩ := hcovered
  rw [hsel, hch]
  simp only [request, hrequired] at hpaid
  exact ⟨candidates, chosen, hoffers, htaken, hids, growth, hgrowth, hsum.trans hpaid, by omega⟩

/-! ## Explicit inputs -/

theorem plan_explicit (hexplicit : o.inputs ≠ []) (h : c.plan o w fee archival = .ok (p, w')) :
    w' = w ∧ p.selected = o.inputs ∧ ∃ growth : Zeno, StateTransitionWeight.stateGrowthBurn
        ⟨c.createdCoinWithoutChange.val + (if fee < o.change.getD 0 then 1 else 0),
        o.inputs.length, 0⟩ =
          .ok growth ∧
      (o.change.getD 0).val = fee.val + (growth.val + archival.val) + p.change.val := by
  simp only [plan, bind_eq_ok, okOr_eq_ok, if_neg hexplicit, exceptMap_eq_ok, planExplicit,
    mapError_eq_ok, checkedAdd_eq_some, ofNat?_eq_some, Option.bind_eq_some_iff,
    checkedSub_eq_some] at h
  obtain ⟨_, -, _, ⟨consumed, hconsumed, growth, hgrowth, burn, hburn, change,
    ⟨rest, hrest, hchange⟩, hp⟩, h⟩ := h
  cases hp
  cases h
  rw [hconsumed] at hgrowth
  refine ⟨rfl, rfl, growth, hgrowth, ?_⟩
  simp only
  omega

/-- The size of an explicit spend without change. -/
def bareSize (c : SpendContext) (o : SpendOptions) (w : AccountWallet) : Nat :=
  transferSize w.publicKey.scheme w.signingSeed.scheme o.inputs.length c.outputs.length

/-- The stated change is just enough for a payment of the bare size that is also charged for a
change output. -/
def UsedUp (c : SpendContext) (o : SpendOptions) (w : AccountWallet) : Prop :=
  ∃ growth : Zeno, StateTransitionWeight.stateGrowthBurn
      ⟨c.createdCoinWithoutChange.val + 1, o.inputs.length, 0⟩ = .ok growth ∧
    (o.change.getD 0).val = c.bareSize o w * 9 + growth.val

/-- The parameters of a round: those of the first, those that a payment with change calls for,
or those that a payment without change calls for. The last do not occur if the stated change
is used up. -/
def ExplicitRound (c : SpendContext) (o : SpendOptions) (w w' : AccountWallet)
    (fee archival : U64) : Prop :=
  w' = w ∧ (fee.val = 8 ∧ archival.val = 0 ∨
    fee.val = (c.bareSize o w + 41) * 8 ∧ archival.val = c.bareSize o w + 41 ∨
    fee.val = c.bareSize o w * 8 ∧ archival.val = c.bareSize o w ∧ ¬ c.UsedUp o w)

omit [Crypto] in
theorem bareSize_pos : 0 < c.bareSize o w := by
  unfold bareSize transferSize
  omega

/-- No round makes a payment without change if the stated change is used up: its parameters
are not the ones that use it up. -/
theorem ExplicitRound.not_usedUp (hround : c.ExplicitRound o w w fee archival)
    (hexplicit : o.inputs ≠ []) (h : c.plan o w fee archival = .ok (p, w')) (hnone : p.change = 0) :
    ¬ c.UsedUp o w := by
  rintro ⟨growth, hgrowth, hused⟩
  obtain ⟨-, -, growth', hgrowth', hgross⟩ := plan_explicit hexplicit h
  rw [hnone, Fin.val_zero] at hgross
  have hpos : 0 < c.bareSize o w := bareSize_pos
  have hlt : fee < o.change.getD 0 := by
    rw [Fin.lt_def]
    rcases hround.2 with ⟨hf, ha⟩ | ⟨hf, ha⟩ | ⟨hf, ha, -⟩
    all_goals omega
  rw [if_pos hlt, hgrowth] at hgrowth'
  cases hgrowth'
  rcases hround.2 with ⟨hf, ha⟩ | ⟨hf, ha⟩ | ⟨-, -, hnot⟩
  · omega
  · omega
  · exact hnot ⟨growth, hgrowth, hused⟩

theorem size_of_explicit (hexplicit : o.inputs ≠ [])
    (h : c.build chain o w fee archival = .ok (tx, w')) (hsize : envelopeLength tx = .ok size) :
    ∃ p, c.plan o w fee archival = .ok (p, w') ∧
      size = c.bareSize o w + if 0 < p.change then 41 else 0 := by
  obtain ⟨p, hplan, hlength⟩ := size_of_build h hsize
  obtain ⟨rfl, hselected, -⟩ := plan_explicit hexplicit hplan
  refine ⟨p, hplan, ?_⟩
  rw [hlength, hselected, bareSize, transferSize, transferSize]
  split <;> omega

theorem ExplicitRound.next (hround : c.ExplicitRound o w w fee archival) (hexplicit : o.inputs ≠ [])
    (h : c.build chain o w fee archival = .ok (tx, w')) (hsize : envelopeLength tx = .ok size)
    {fee' archival' : U64} (hfee : fee'.val = size * 8) (harchival : archival'.val = size) :
    c.ExplicitRound o w w' fee' archival' := by
  obtain ⟨p, hplan, rfl⟩ := size_of_explicit hexplicit h hsize
  refine ⟨(plan_explicit hexplicit hplan).1, ?_⟩
  by_cases hchange : 0 < p.change
  · rw [if_pos hchange] at hfee harchival
    exact .inr (.inl ⟨hfee, harchival⟩)
  · rw [if_neg hchange, Nat.add_zero] at hfee harchival
    have hnone : p.change = 0 := Fin.le_zero_iff.mp (not_lt.mp hchange)
    exact .inr (.inr ⟨hfee, harchival, hround.not_usedUp hexplicit hplan hnone⟩)

theorem change_of_explicit (hround : c.ExplicitRound o w w fee archival) (hexplicit : o.inputs ≠ [])
    (h : c.build chain o w fee archival = .ok (tx, w')) (hsize : envelopeLength tx = .ok size)
    (hfee : fee.val = size * 8) (harchival : archival.val = size)
    (hplan : c.plan o w fee archival = .ok (p, w')) : 0 < p.change ∧ fee < o.change.getD 0 := by
  obtain ⟨p', hplan', hlength⟩ := size_of_explicit hexplicit h hsize
  cases hplan.symm.trans hplan'
  obtain ⟨-, -, growth, hgrowth, hgross⟩ := plan_explicit hexplicit hplan
  have hpos : 0 < c.bareSize o w := bareSize_pos
  have hlt : fee < o.change.getD 0 := by
    rw [Fin.lt_def]
    omega
  refine ⟨?_, hlt⟩
  by_contra hchange
  have hnone : p.change = 0 := Fin.le_zero_iff.mp (not_lt.mp hchange)
  rw [if_neg hchange, Nat.add_zero] at hlength
  rw [if_pos hlt] at hgrowth
  rw [hnone, Fin.val_zero] at hgross
  exact hround.not_usedUp hexplicit hplan hnone ⟨growth, hgrowth, by omega⟩

end SpendContext

end

/-! ## Preparation -/

theorem coinTransferOutputs_ok {o : SpendOptions} {outputs : List CoinOutput} {total : U64}
    (h : coinTransferOutputs o = .ok (outputs, total)) :
    (outputs.map fun output => output.amount.val).sum = total.val := by
  unfold coinTransferOutputs at h
  split at h
  · simp only [bind_eq_ok, okOr_eq_ok] at h
    obtain ⟨recipient, -, amount, -, h⟩ := h
    cases h
    simp
  · simp only [parseCoinOutputOptions, bind_eq_ok, okOr_eq_ok, sumAmounts, foldlM_checkedAdd] at h
    obtain ⟨-, -, -, -, total', htotal, h⟩ := h
    cases h
    rw [htotal]
    simp [Function.comp_def]

theorem candidates_reported {fetchAccount : FetchAccount} {programId : ProgramId}
    (h : accountInputCandidatesForProgram fetchAccount programId = .ok candidates) :
    ∃ utxos, fetchAccount programId = .ok utxos ∧ ∀ utxo ∈ candidates, utxo ∈ utxos := by
  rw [accountInputCandidatesForProgram, exceptMap_eq_ok] at h
  obtain ⟨utxos, hutxos, rfl⟩ := h
  refine ⟨utxos, hutxos, ?_⟩
  intro utxo hmem
  rw [mem_insertionSort] at hmem
  exact mem_of_mem_filter hmem

section
variable [Crypto]

variable {payment : CoinTransition} {s : LedgerState} {fetchAccount : FetchAccount}
  {w : AccountWallet} {o : SpendOptions} {c : SpendContext} {tx : AuthorizedProgramInvocation}
  {signer : ProgramId} {coins : List (CoinShare × CoinUtxo)}

/-- The context of a spend: its outputs are worth the amount, the miner's fee is counted among
what is created, and all coins on offer were reported. -/
theorem prepareSpend_ok (h : prepareSpend fetchAccount w o = .ok c) :
    coinTransferOutputs o = .ok (c.outputs, c.totalAmount) ∧
      c.createdCoinWithoutChange.val = c.outputs.length + 1 ∧
      ∀ candidates, c.Offers candidates → ∃ programId utxos,
        fetchAccount programId = .ok utxos ∧ ∀ utxo ∈ candidates, utxo ∈ utxos := by
  simp only [prepareSpend, bind_eq_ok, okOr_eq_ok, Option.bind_eq_some_iff, ofNat?_eq_some,
    checkedAdd_eq_some] at h
  obtain ⟨-, -, -, -, ⟨outputs, total⟩, houtputs, created, ⟨count, hcount, hcreated⟩,
    legacy, -, -, -, accounts, haccounts, coins, hcoins, h⟩ := h
  cases h
  refine ⟨houtputs, by rw [hcreated, hcount]; rfl, ?_⟩
  rintro candidates (hlegacy | ⟨found, hfound, account, hmem, rfl⟩)
  · cases hlegacy
    unfold fetchLegacyCandidates at hcoins
    split at hcoins
    · cases hcoins
    · split at hcoins
      · rw [exceptMap_eq_ok] at hcoins
        obtain ⟨_, hcoins, heq⟩ := hcoins
        cases heq
        exact ⟨_, candidates_reported hcoins⟩
      · cases hcoins
  · cases hfound
    unfold fetchAccountCandidates at haccounts
    split at haccounts
    · rw [exceptMap_eq_ok] at haccounts
      obtain ⟨_, haccounts, heq⟩ := haccounts
      cases heq
      obtain ⟨salt, -, hsalt⟩ := mem_of_mapM haccounts hmem
      simp only [bind_eq_ok] at hsalt
      obtain ⟨programId, -, utxos, hutxos, hsalt⟩ := hsalt
      cases hsalt
      exact ⟨_, candidates_reported hutxos⟩
    · cases haccounts

/-- Where the value of a spend comes from: coins on offer, or what the options state. -/
def SpendContext.Funds (c : SpendContext) (o : SpendOptions) (selected : List CoinShare)
    (value : Nat) : Prop :=
  (o.inputs = [] ∧ ∃ candidates chosen, c.Offers candidates ∧ chosen <+: candidates ∧
    chosen.map (fun utxo => CoinShare.fromStr utxo.id) = selected.map some ∧
    (chosen.map fun utxo => utxo.amount.val).sum = value) ∨
  (o.inputs ≠ [] ∧ selected = o.inputs ∧ value = c.totalAmount.val + (o.change.getD 0).val)

variable {chain : ChainContext} {required actual : U64}

/-- A signed spend is a transfer that was built for its own size and whose funds are the
amount, the fee, the burn and the change. -/
theorem signSpend_balance (h : signSpend fetchAccount chain w o = .ok tx) :
    ∃ (c : SpendContext) (p : SpendPlan) (size : Nat) (growth : Zeno),
      prepareSpend fetchAccount w o = .ok c ∧ tx.call = transferCall ∧
      tx.payment.inputs = p.selected ∧ tx.payment.outputs = c.planned p ∧
      envelopeLength tx = .ok size ∧ tx.payment.charges.minerFee.val = size * 8 ∧
      StateTransitionWeight.stateGrowthBurn
        ⟨c.createdCoinWithoutChange.val + (if 0 < p.change then 1 else 0), p.selected.length, 0⟩ =
          .ok growth ∧ growth.val + size < 2 ^ 64 ∧
      c.Funds o p.selected (c.totalAmount.val + size * 8 + (growth.val + size) + p.change.val) := by
  rw [signSpend, bind_eq_ok] at h
  obtain ⟨c, hc, h⟩ := h
  by_cases hauto : o.inputs = []
  · obtain ⟨w₁, fee, archival, w₂, size, -, hbuild, hsize, hfee, harchival⟩ :=
      feeRounds_ok (fun _ _ _ => True) (fun _ _ _ _ _ _ _ _ _ _ _ _ _ => trivial) trivial h
    obtain ⟨p, hplan, hcall, hinputs, houtputs, hminer, -, -⟩ := SpendContext.build_ok hbuild
    obtain ⟨candidates, chosen, hoffers, htaken, hids, growth, hgrowth, hsum, hlt⟩ :=
      SpendContext.plan_automatic hauto hplan
    replace harchival : archival.val = size := harchival.trans (Nat.mul_one size)
    rw [hfee, harchival] at hsum
    rw [harchival] at hlt
    refine ⟨c, p, size, growth, hc, hcall, hinputs, houtputs, hsize, hminer ▸ hfee,
      hgrowth, hlt, ?_⟩
    exact .inl ⟨hauto, candidates, chosen, hoffers, htaken, hids, hsum⟩
  · have hfirst : c.ExplicitRound o w w automaticFeeZenoPerByte 0 := ⟨rfl, .inl ⟨rfl, rfl⟩⟩
    obtain ⟨w₁, fee, archival, w₂, size, hround, hbuild, hsize, hfee, harchival⟩ :=
      feeRounds_ok (c.ExplicitRound o w) (fun w₁ fee archival tx w₂ size hround hbuild hsize
        fee' archival' hfee harchival => by
          obtain ⟨rfl, hparams⟩ := hround
          exact SpendContext.ExplicitRound.next ⟨rfl, hparams⟩ hauto hbuild hsize hfee
            (harchival.trans (Nat.mul_one size))) hfirst h
    obtain ⟨rfl, hparams⟩ := hround
    replace harchival : archival.val = size := harchival.trans (Nat.mul_one size)
    obtain ⟨p, hplan, hcall, hinputs, houtputs, hminer, -, -⟩ := SpendContext.build_ok hbuild
    obtain ⟨hchange, hlt⟩ := SpendContext.change_of_explicit ⟨rfl, hparams⟩ hauto hbuild hsize hfee
      harchival hplan
    obtain ⟨-, hselected, growth, hgrowth, hgross⟩ := SpendContext.plan_explicit hauto hplan
    rw [if_pos hlt, ← hselected] at hgrowth
    refine ⟨c, p, size, growth, hc, hcall, hinputs, houtputs, hsize, hminer ▸ hfee, ?_,
      by omega, ?_⟩
    · rw [if_pos hchange]
      exact hgrowth
    · refine .inr ⟨hauto, hselected, ?_⟩
      rw [hgross, hfee, harchival]
      simp only [show automaticFeeZenoPerByte.val = 8 from rfl]
      omega

/-! ## The burn consensus requires -/

/-- The burn that consensus requires of a coin transfer of the given size. -/
def transferBurn (payment : CoinTransition) (size : Nat) : Except BurnError Zeno := do
  let burn ← ProtocolBurn.forProgramCall ⟨countCoinOutputs payment, payment.inputs.length, 0⟩ size
  burn.total

omit [Crypto] in
theorem transferBurn_eq_ok {size : Nat} {burn growth : Zeno}
    (hgrowth : StateTransitionWeight.stateGrowthBurn
      ⟨countCoinOutputs payment, payment.inputs.length, 0⟩ = .ok growth)
    (hburn : burn.val = growth.val + size) : transferBurn payment size = .ok burn := by
  have hsize : ofNat? (2 ^ 64) size = some ⟨size, by omega⟩ := ofNat?_eq_some.mpr rfl
  rw [transferBurn, ProtocolBurn.forProgramCall, hsize, hgrowth]
  exact okOr_eq_ok.mpr (checkedAdd_eq_some.mpr (by rw [hburn, Nat.add_comm]))

omit [Crypto] in
theorem validateCoinInputs_ne_burn {e : BurnError} :
    validateCoinInputs payment signer s ≠ .error (.burn e) := by
  intro h
  simp only [validateCoinInputs, bind_eq_error, rejectIf_eq_error, okOr_eq_error, reduceCtorEq,
    and_false, exists_const, or_false, false_or] at h
  obtain ⟨-, -, -, -, hfold⟩ := h
  obtain ⟨total, id, -, hid⟩ := exists_of_foldlM_eq_error hfold
  simp [bind_eq_error, okOr_eq_error, rejectIf_eq_error] at hid

omit [Crypto] in
theorem transferBurn_ne_incorrectBurn {size : Nat} :
    transferBurn payment size ≠ .error (.incorrectBurn required actual) := by
  simp [transferBurn, ProtocolBurn.forProgramCall, ProtocolBurn.total,
    StateTransitionWeight.stateGrowthBurn, bind_eq_error, okOr_eq_error]

theorem validateProgramCall_transfer (chain : ChainContext) (height : U64) (s : LedgerState)
    (apps : ApplicationExecutor) (hcall : tx.call = transferCall) :
    validateProgramCall tx chain height s apps = (do
      tx.validateStructure.mapError .intent
      let size ← orError (BlockOperation.programCall tx).canonicalLen .encoding
      rejectIf (size > maxProgramInvocationSize) .invocationTooLarge
      let valid ← (tx.verifyAuthorizations chain).mapError .intent
      rejectIf (valid = false) .invalidAuthorization
      let actual ← validateCoinInputs tx.payment tx.signer s
      let required ← (transferBurn tx.payment size).mapError .burn
      (validateExactBurn actual required).mapError .burn
      return ⟨tx, required, 0, height⟩) := by
  have hdecoded : decodeProgram tx.call = .ok .xpqTransfer := by
    rw [hcall]
    rfl
  have hfuel : ∀ total : Zeno, (ofNat? (2 ^ 64) 0).bind (checkedAdd total) = some total := by
    intro total
    exact checkedAdd_eq_some.mpr rfl
  unfold validateProgramCall
  rw [hdecoded]
  simp only [transferBurn, mapError_bind, bind_assoc]
  refine bind_congr fun _ => bind_congr fun size => bind_congr fun _ => bind_congr fun valid =>
    bind_congr fun _ => ?_
  simp only [orError, vmQuote, callStateWeight, ok_bind, TransferQuote.zero, Nat.add_zero,
    Fin.val_zero]
  refine bind_congr fun actual => bind_congr fun burn => bind_congr fun total => ?_
  rw [hfuel]
  rfl

theorem validateProgramCall_incorrectBurn {height : U64} {apps : ApplicationExecutor}
    (hcall : tx.call = transferCall)
    (h : validateProgramCall tx chain height s apps =
      .error (.burn (.incorrectBurn required actual))) :
    ∃ size, (BlockOperation.programCall tx).canonicalLen = .ok size ∧
      transferBurn tx.payment size = .ok required ∧
      validateCoinInputs tx.payment tx.signer s = .ok actual ∧ actual ≠ required := by
  rw [validateProgramCall_transfer chain height s apps hcall] at h
  simp only [bind_eq_error, mapError_eq_error, orError_eq_error, rejectIf_eq_error, reduceCtorEq,
    and_false, exists_false, false_or, validateCoinInputs_ne_burn, ProgramConsensusError.burn.injEq,
    exists_eq_right, transferBurn_ne_incorrectBurn, validateExactBurn, orError_eq_ok,
      mapError_eq_ok,
    BurnError.incorrectBurn.injEq, pure_eq_ok, or_false] at h
  obtain ⟨-, -, size, hsize, -, -, valid, -, -, -, left, hleft, price, hprice, hne, rfl, rfl⟩ := h
  exact ⟨size, hsize, hprice, hleft, hne⟩

/-! ## The spend meets the requirement -/

/-- What a coin is worth in a state. -/
def LedgerState.coinValue (s : LedgerState) (id : CoinShare) : Nat :=
  ((s.utxos.coin id).map fun coin => coin.amount.val).getD 0

/-- The state holds what the wallet was told: coin by coin what the node reported, or in total
what the options state of the inputs. -/
def SpendOptions.Truthful (o : SpendOptions) (fetchAccount : FetchAccount) (s : LedgerState) :
    Prop :=
  (o.inputs = [] → ∀ programId utxos, fetchAccount programId = .ok utxos →
    ∀ utxo ∈ utxos, ∀ id coin, CoinShare.fromStr utxo.id = some id → s.utxos.coin id = some coin →
      coin.amount = utxo.amount) ∧
  (o.inputs ≠ [] → ∀ outputs total, coinTransferOutputs o = .ok (outputs, total) →
    (o.inputs.map s.coinValue).sum = total.val + (o.change.getD 0).val)

omit [Crypto] in
theorem Spendable.sum_coinValue (h : Spendable payment signer s coins) :
    (payment.inputs.map s.coinValue).sum = sumCoins coins := by
  rw [← h.inputs, map_map, sumCoins]
  refine congrArg List.sum (map_congr_left fun e he => ?_)
  rw [Function.comp_apply, LedgerState.coinValue, UtxoSet.coin, h.live e he]
  rfl

omit [Crypto] in
theorem sum_reported {chosen : List AccountUtxo}
    (hids : chosen.map (fun utxo => CoinShare.fromStr utxo.id) = (coins.map Prod.fst).map some)
    (hamount : ∀ utxo ∈ chosen, ∀ e ∈ coins, CoinShare.fromStr utxo.id = some e.1 →
      e.2.amount = utxo.amount) :
    (chosen.map fun utxo => utxo.amount.val).sum = sumCoins coins := by
  induction chosen generalizing coins with
  | nil =>
    cases coins with
    | nil => rfl
    | cons e coins => cases hids
  | cons utxo chosen ih =>
    cases coins with
    | nil => cases hids
    | cons e coins =>
      simp only [map_cons, List.cons.injEq] at hids
      have hhead := hamount utxo mem_cons_self e mem_cons_self hids.1
      have htail := ih hids.2 fun utxo hu e he =>
        hamount utxo (mem_cons_of_mem _ hu) e (mem_cons_of_mem _ he)
      rw [map_cons, sum_cons, htail, ← hhead, sumCoins, sumCoins, map_cons, sum_cons]

theorem SpendContext.Funds.sumCoins_eq {value : Nat} (hfunds : c.Funds o payment.inputs value)
    (hc : prepareSpend fetchAccount w o = .ok c) (htruth : o.Truthful fetchAccount s)
    (hspend : Spendable payment signer s coins) : sumCoins coins = value := by
  obtain ⟨houtputs, -, hreported⟩ := prepareSpend_ok hc
  rcases hfunds with ⟨hauto, candidates, chosen, hoffers, htaken, hids,
    hsum⟩ | ⟨hexplicit, hselected, hvalue⟩
  · obtain ⟨programId, utxos, hfetch, hsub⟩ := hreported candidates hoffers
    rw [← hsum]
    refine (sum_reported (by rw [hspend.inputs, hids]) ?_).symm
    intro utxo hutxo e he hid
    exact htruth.1 hauto programId utxos hfetch utxo (hsub utxo (htaken.subset hutxo)) e.1 e.2 hid
      (hspend.live e he)
  · rw [← hspend.sum_coinValue, hselected, hvalue]
    exact htruth.2 hexplicit _ _ houtputs

omit [Crypto] in
theorem SpendContext.sum_planned {p : SpendPlan}
    (h : (c.outputs.map fun output => output.amount.val).sum = c.totalAmount.val) :
    ((c.planned p).map fun output => output.amount.val).sum = c.totalAmount.val + p.change.val := by
  rw [SpendContext.planned, map_append, sum_append, h]
  split
  · simp
  · rename_i hchange
    rw [Fin.le_zero_iff.mp (not_lt.mp hchange)]
    rfl

/-- A spend that the wallet signed pays eight zeno per canonical byte to the miner. In a state that
holds what the wallet was told, and in which the signer can spend the inputs, the values balance and
leave exactly the burn that consensus requires; the burn check does not reject it. -/
theorem signSpend_exact {fetchAccount : FetchAccount} {chain : ChainContext} {w : AccountWallet}
    {o : SpendOptions} {tx : AuthorizedProgramInvocation}
    (h : signSpend fetchAccount chain w o = .ok tx) :
    ∃ (size : Nat) (required : Zeno), (BlockOperation.programCall tx).canonicalLen = .ok size ∧
      tx.payment.charges.minerFee.val = 8 * size ∧ transferBurn tx.payment size = .ok required ∧
      ∀ s : LedgerState, o.Truthful fetchAccount s →
        (∀ coins, Spendable tx.payment tx.signer s coins → sumCoins coins < 2 ^ 64 →
          validateCoinInputs tx.payment tx.signer s = .ok required) ∧
        ∀ chain height apps price left, validateProgramCall tx chain height s apps ≠
          .error (.burn (.incorrectBurn price left)) := by
  obtain ⟨c, p, size, growth, hc, hcall, hinputs, houtputs, hsize, hfee, hgrowth, hlt, hfunds⟩ :=
    signSpend_balance h
  obtain ⟨htransfer, hcreated, -⟩ := prepareSpend_ok hc
  have hlen := canonicalLen_of_envelopeLength hsize
  -- the fee is not zero, so that consensus counts the miner's output as the wallet did
  have hcount : countCoinOutputs tx.payment =
      c.createdCoinWithoutChange.val + if 0 < p.change then 1 else 0 := by
    obtain ⟨bytes, -, hpos, -⟩ := envelopeLength_eq hsize
    have hne : tx.payment.charges.minerFee ≠ 0 := by
      intro hzero
      rw [hzero, Fin.val_zero] at hfee
      omega
    rw [countCoinOutputs, if_neg hne, houtputs, SpendContext.length_planned, hcreated]
    omega
  rw [← hinputs, ← hcount] at hgrowth
  have hrequired : transferBurn tx.payment size = .ok ⟨growth.val + size, hlt⟩ :=
    transferBurn_eq_ok hgrowth rfl
  have hburned : ∀ s : LedgerState, o.Truthful fetchAccount s → ∀ coins,
      Spendable tx.payment tx.signer s coins →
      sumCoins coins < 2 ^ 64 →
        validateCoinInputs tx.payment tx.signer s = .ok ⟨growth.val + size, hlt⟩ := by
    intro s htruth coins hspend hsum
    refine validateCoinInputs_eq_ok.mpr ⟨coins, hspend, hsum, ?_⟩
    rw [← hinputs] at hfunds
    rw [hfunds.sumCoins_eq hc htruth hspend, hfee, CoinTransition.outputSum, houtputs,
      SpendContext.sum_planned (coinTransferOutputs_ok htransfer)]
    simp only
    omega
  refine ⟨size, _, hlen, by omega, hrequired, fun s htruth => ⟨hburned s htruth, ?_⟩⟩
  intro chain height apps price left herror
  obtain ⟨size', hlen', hprice, hleft, hne⟩ := validateProgramCall_incorrectBurn hcall herror
  cases hlen.symm.trans hlen'
  cases hrequired.symm.trans hprice
  obtain ⟨coins, hspend, hsum, -⟩ := validateCoinInputs_eq_ok.mp hleft
  cases (hburned s htruth coins hspend hsum).symm.trans hleft
  exact hne rfl

end

/-! A wallet with one account, which holds one coin. -/

section Sample

attribute [local instance] Crypto.checksum

def spendWallet : AccountWallet where
  programId := (signatureAccount ⟨.mlDsa44, List.replicate 1312 0⟩ 0).getD 0
  publicKey := ⟨.mlDsa44, List.replicate 1312 0⟩
  accountSalt := ⟨List.replicate 16 0, rfl⟩
  accountSalts := [⟨List.replicate 16 0, rfl⟩]
  signingSeed := ⟨.mlDsa44, fun _ => List.replicate 2420 0⟩

def spendUtxo : AccountUtxo := ⟨List.replicate 64 0x30, 1000000, false⟩

def spendOptions : SpendOptions where
  miner := false
  salt := false
  recipient := some (.program 7)
  amount := some 1000
  outputs := []
  inputs := []
  legacySalt := none
  change := none
  changeTo := none

def spendState : LedgerState :=
  { LedgerState.empty with
    utxos := ⟨(∅ : OrderedMap CoinShare CoinUtxo).insert 0 ⟨1000000,
      .program spendWallet.programId⟩, 1000000, ∅⟩ }

theorem spendState_truthful : spendOptions.Truthful (fun _ => .ok [spendUtxo]) spendState := by
  refine ⟨fun _ programId utxos hfetch utxo hutxo id coin hid hcoin => ?_,
    fun hne => absurd rfl hne⟩
  cases hfetch
  cases mem_singleton.mp hutxo
  have hzero : CoinShare.fromStr spendUtxo.id = some 0 := by decide +kernel
  cases hid.symm.trans hzero
  have hheld : spendState.utxos.coin 0 = some ⟨1000000, .program spendWallet.programId⟩ := by
    decide +kernel
  cases hcoin.symm.trans hheld
  rfl

theorem spendWallet_exact : ∃ tx size required,
    signSpend (fun _ => .ok [spendUtxo]) ⟨0⟩ spendWallet spendOptions = .ok tx ∧
      (BlockOperation.programCall tx).canonicalLen = .ok size ∧
      tx.payment.charges.minerFee.val = 8 * size ∧ transferBurn tx.payment size = .ok required ∧
      validateCoinInputs tx.payment tx.signer spendState = .ok required := by
  obtain ⟨tx, hsigned, hok⟩ :=
    exists_of_any (show ((signSpend (fun _ => .ok [spendUtxo]) ⟨0⟩ spendWallet
    spendOptions).toOption.any fun tx =>
      (validateCoinInputs tx.payment tx.signer spendState).isOk) = true by
      decide +kernel)
  obtain ⟨left, hvalid⟩ := exists_of_isOk hok
  obtain ⟨size, required, hlen, hfee, hrequired, hexact⟩ := signSpend_exact hsigned
  obtain ⟨coins, hspend, hsum, -⟩ := validateCoinInputs_eq_ok.mp hvalid
  cases ((hexact spendState spendState_truthful).1 coins hspend hsum).symm.trans hvalid
  exact ⟨tx, size, left, hsigned, hlen, hfee, hrequired, hvalid⟩

end Sample

end Xparq
