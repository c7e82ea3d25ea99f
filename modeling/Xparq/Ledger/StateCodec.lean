import Xparq.Borsh
import Xparq.Ledger.Storable

/-!
# Reading a ledger state back

The readers of the canonical state, as the source decodes it: maps are collected from their
entries, lookups that are not encoded are recomputed, and registries check every record on the
way. `readLedgerState_accepts` says that the canonical bytes of a sound state with a valid
registry are read back as that state, with the asset lookups recomputed and no supply summary;
`Sound.reread` that the result is sound again.
-/

namespace Xparq

open Machine Outcome OrderedMap Reader List

/-! ## Coins -/

def readCoinUtxo : Reader Byte CoinUtxo := do
  let amount ← readU64
  let owner ← Owner.decode
  return ⟨amount, owner⟩

def CoinUtxo.encode (c : CoinUtxo) : List Byte := leBytes 8 c.amount.val ++ c.owner.encode

theorem readCoinUtxo_accepts : Accepts readCoinUtxo (fun c code => code = c.encode) := by
  rintro ⟨amount, owner⟩ _ rest rfl
  rw [CoinUtxo.encode, readCoinUtxo, append_assoc, readU64_reads.accepts.run_bind rfl,
    Owner.decode_reads.accepts.run_bind rfl]
  rfl

/-- The owner lookup of a coin map. -/
def coinIndex (coins : OrderedMap CoinShare CoinUtxo) : GroupIndex Owner CoinShare :=
  coins.entries.foldl (fun index e => index.add e.2.owner e.1) ∅

def readUtxoSet : Reader Byte UtxoSet := do
  let coins ← readMap (readEntry readCoinUtxo)
  let totalValue ← readU64
  return ⟨coins, totalValue, coinIndex coins⟩

theorem UtxoSet.WellFormed.coinIndex_eq {s : UtxoSet} (h : s.WellFormed) :
    coinIndex s.coins = s.byOwner := by
  obtain ⟨hmembers, hcompact⟩ := GroupIndex.foldl_add CoinUtxo.owner s.coins.entries ∅
  refine GroupIndex.Compact.ext (hcompact GroupIndex.compact_empty) h.compact fun owner id => ?_
  rw [h.indexed owner id]
  exact (hmembers owner id).trans (by simp [get?_eq_some_iff])

theorem readUtxoSet_accepts :
    Accepts readUtxoSet (fun s code => s.encode = some code ∧ s.WellFormed) := by
  rintro s _ rest ⟨hcode, hwf⟩
  rw [UtxoSet.encode, Option.map_eq_some_iff] at hcode
  obtain ⟨count, hcount, rfl⟩ := hcode
  have hentries : Counted (fun e code => ∃ value, value = CoinUtxo.encode e.2 ∧
      code = e.1.bytes ++ value)
      s.coins.entries
        (count ++ (s.coins.entries.map fun e => UtxoSet.encodeEntry e.1 e.2).flatten) := by
    refine ⟨count, _, hcount, (sequence_congr fun e _ code => ?_).mp (sequence_total.mpr rfl), rfl⟩
    simp only [exists_eq_left, UtxoSet.encodeEntry, CoinUtxo.encode, append_assoc]
  rw [readUtxoSet, append_assoc,
    (readMap_accepts (readEntry_accepts readCoinUtxo_accepts)).run_bind hentries,
      readU64_reads.accepts.run_bind rfl, hwf.coinIndex_eq]
  rfl

/-! ## Program storage -/

/-- Byte vectors that are not empty. -/
def readNonempty (maximum : Nat) : Reader Byte (List Byte) := readBytes fun n => n ≠ 0 ∧ n ≤ maximum

/-- One storage entry, with the bytes used so far. -/
def readStorageEntry : Storage × Nat → Reader Byte (Storage × Nat) := fun (map, size) => do
  let key ← readNonempty maxKeyBytes
  require (∀ last ∈ map.entries.getLast?, last.1 < key)
  let value ← readNonempty maxDataBytes
  let size := size + (8 + key.length + value.length)
  require (size ≤ maxStorageBytes)
  return (map.insert key value, size)

def readStorage : Reader Byte Storage := do
  let count ← readLe 4
  require (count ≤ maxStorageEntries)
  let (map, _) ← loop readStorageEntry count (∅, 4)
  return map

theorem readNonempty_reads (maximum : Nat) : Reads (readNonempty maximum)
    (fun l code => encodeBytes l = some code ∧ l ≠ [] ∧ l.length ≤ maximum) := by
  refine (readBytes_reads _).congr fun l code => ?_
  rw [ne_eq, ne_eq, length_eq_zero_iff]

/-- What one entry adds to the encoded size. -/
def storageEntrySize (e : List Byte × List Byte) : Nat := 8 + e.1.length + e.2.length

/-- The code of one entry. -/
def encodeStorageEntry (e : List Byte × List Byte) : Option (List Byte) := do
  let key ← encodeBytes e.1
  let value ← encodeBytes e.2
  return key ++ value

/-- The entries that `validStorage` admits. -/
def ValidStorageEntry (e : List Byte × List Byte) : Prop :=
  (e.1 ≠ [] ∧ e.1.length ≤ maxKeyBytes) ∧ e.2 ≠ [] ∧ e.2.length ≤ maxDataBytes

/-- The state of the reader after some entries. -/
def storageState (done : List (List Byte × List Byte)) : Storage × Nat :=
  (ofEntries done, 4 + (done.map storageEntrySize).sum)

/-- The next key is above the last one, and the size stays within the limit. -/
def FitsStorage (done : List (List Byte × List Byte)) (e : List Byte × List Byte) : Prop :=
  (∀ last ∈ (ofEntries done).entries.getLast?, last.1 < e.1) ∧
    4 + (done.map storageEntrySize).sum + storageEntrySize e ≤ maxStorageBytes

theorem storageState_concat (done : List (List Byte × List Byte)) (e : List Byte × List Byte) :
    storageState (done ++ [e]) =
      ((ofEntries done).insert e.1 e.2,
      4 + (done.map storageEntrySize).sum + storageEntrySize e) := by
  simp only [storageState, ofEntries_append, map_append, sum_append, map_singleton, sum_singleton,
    Nat.add_assoc]

theorem readStorageEntry_reads (done : List (List Byte × List Byte)) :
    Reads (readStorageEntry (storageState done)) (fun s code =>
      ∃ e, ((encodeStorageEntry e = some code ∧ ValidStorageEntry e) ∧ FitsStorage done e) ∧
        s = storageState (done ++ [e])) := by
  refine ((readNonempty_reads maxKeyBytes).check fun key =>
    (readNonempty_reads maxDataBytes).check fun value =>
    Reads.pure _).congr fun s code => ?_
  constructor
  · rintro ⟨key, first, ⟨⟨hkey, hkeyOk⟩, hlast⟩, _, ⟨value, second, ⟨⟨hvalue, hvalueOk⟩, hsize⟩, _,
      ⟨rfl, rfl⟩, rfl⟩, rfl⟩
    refine ⟨(key, value), ⟨⟨?_, hkeyOk, hvalueOk⟩, hlast, hsize⟩,
      (storageState_concat done (key, value)).symm⟩
    rw [encodeStorageEntry, hkey, hvalue, append_nil]
    rfl
  · rintro ⟨⟨key, value⟩, ⟨⟨hcode, hkeyOk, hvalueOk⟩, hlast, hsize⟩, rfl⟩
    simp only [encodeStorageEntry, bind_eq_some, return_eq_some] at hcode
    obtain ⟨first, hkey, second, hvalue, rfl⟩ := hcode
    exact ⟨key, first, ⟨⟨hkey, hkeyOk⟩, hlast⟩, second,
      ⟨value, second, ⟨⟨hvalue, hvalueOk⟩, hsize⟩, [], ⟨storageState_concat done _, rfl⟩,
        (append_nil _).symm⟩, rfl⟩

theorem getLast?_lt_of_pairwise {α β : Type} [LinearOrder α] {done todo : List (α × β)} {e : α × β}
    (hs : (done ++ e :: todo).Pairwise fun a b => a.1 < b.1) :
    ∀ last ∈ done.getLast?, last.1 < e.1 := by
  intro last hlast
  obtain ⟨_, _, hlt⟩ := pairwise_append.mp hs
  exact hlt last (mem_of_getLast? hlast) e mem_cons_self

theorem admits_fitsStorage {l : List (List Byte × List Byte)} :
    Admits FitsStorage [] l ↔
      (l.Pairwise fun a b => a.1 < b.1) ∧ 4 + (l.map storageEntrySize).sum ≤ maxStorageBytes := by
  constructor
  · intro h
    refine h.invariant (I := fun done =>
      (done.Pairwise fun a b => a.1 < b.1) ∧
        4 + (done.map storageEntrySize).sum ≤ maxStorageBytes) ?_
      ⟨List.Pairwise.nil, by decide⟩
    rintro done e ⟨hsorted, _⟩ ⟨hlast, hsize⟩
    rw [entries_ofEntries hsorted] at hlast
    refine ⟨pairwise_append.mpr ⟨hsorted, pairwise_singleton _ _, ?_⟩, ?_⟩
    · intro d hd e' he'
      rw [mem_singleton.mp he']
      obtain ⟨front, last, rfl⟩ := (eq_nil_or_concat' done).resolve_left (ne_nil_of_mem hd)
      have hbelow := hlast last getLast?_concat
      rcases mem_append.mp hd with hd | hd
      · exact ((pairwise_append.mp hsorted).2.2 d hd last (mem_singleton_self _)).trans hbelow
      · rwa [mem_singleton.mp hd]
    · rwa [map_append, sum_append, map_singleton, sum_singleton, ← Nat.add_assoc]
  · rintro ⟨hsorted, hsize⟩
    refine Admits.of_forall fun before e after hsplit => ?_
    rw [hsplit] at hsorted hsize
    rw [map_append, sum_append, map_cons, sum_cons] at hsize
    rw [nil_append]
    refine ⟨?_, by omega⟩
    rw [entries_ofEntries (pairwise_append.mp hsorted).1]
    exact getLast?_lt_of_pairwise hsorted

variable {s : Storage} {code : List Byte}

theorem encodeStorage_eq_some : encodeStorage s = some code ↔
    ∃ count, encodeLen s.length = some count ∧ ∃ entries,
      Sequence (fun e code => encodeStorageEntry e = some code) s.entries entries ∧
      code = count ++ entries := by
  simp only [encodeStorage, bind_eq_some, return_eq_some, sequence_mapM]
  constructor
  · rintro ⟨count, hcount, parts, hparts, rfl⟩
    exact ⟨count, hcount, _, ⟨parts, hparts, rfl⟩, rfl⟩
  · rintro ⟨count, hcount, _, ⟨parts, hparts, rfl⟩, rfl⟩
    exact ⟨count, hcount, parts, hparts, rfl⟩

theorem validStorage_iff_entries : validStorage s = true ↔
    s.length ≤ maxStorageEntries ∧ (∀ e ∈ s.entries, ValidStorageEntry e) ∧
      4 + (s.entries.map storageEntrySize).sum ≤ maxStorageBytes := by
  simp only [validStorage_iff, get?_eq_some_iff, checkKey_eq_ok, Prod.forall]
  rw [Nat.add_comm 4]
  rfl

theorem readStorage_reads : Reads readStorage
    (fun s code => encodeStorage s = some code ∧ validStorage s = true) := by
  have hwidth : (2 : Nat) ^ 32 = 256 ^ 4 := by norm_num
  refine ((readLe_reads 4).check fun count =>
    (Reads.loop readStorageEntry_reads count []).bind fun s => Reads.pure s.1).congr
      fun s code => ?_
  constructor
  · rintro ⟨count, _, ⟨⟨hlt, rfl⟩, hcount⟩, _, ⟨_, first, ⟨l, rfl, hcode, hadmits, rfl⟩, _,
      ⟨rfl, rfl⟩, rfl⟩, rfl⟩
    obtain ⟨hsorted, hsize⟩ := admits_fitsStorage.mp hadmits
    obtain ⟨hcode, hvalid⟩ := sequence_and hcode
    have hentries : (ofEntries l).entries = l := entries_ofEntries hsorted
    change encodeStorage (ofEntries l) = _ ∧ validStorage (ofEntries l) = true
    rw [encodeStorage_eq_some, validStorage_iff_entries, OrderedMap.length, hentries]
    refine ⟨⟨_, if_pos (hwidth ▸ hlt), first, hcode, by rw [append_nil]⟩, hcount, fun e he => ?_,
      hsize⟩
    obtain ⟨_, _, he⟩ := hvalid e he
    exact he
  · rintro ⟨hcode, hvalid⟩
    obtain ⟨hcount, hentries, hsize⟩ := validStorage_iff_entries.mp hvalid
    obtain ⟨count, hlength, entries, hsequence, rfl⟩ := encodeStorage_eq_some.mp hcode
    rw [encodeLen, Option.ite_none_right_eq_some, Option.some.injEq] at hlength
    obtain ⟨hlt, rfl⟩ := hlength
    refine ⟨s.length, _, ⟨⟨hwidth ▸ hlt, rfl⟩, hcount⟩, entries, ⟨storageState s.entries, entries,
      ⟨s.entries, rfl, hsequence.and hentries, admits_fitsStorage.mpr ⟨s.sorted, hsize⟩, rfl⟩, [],
        ⟨?_, rfl⟩,
      (append_nil _).symm⟩, rfl⟩
    exact (ofEntries_entries s).symm

theorem exists_encodeStorage (h : validStorage s = true) : ∃ code, encodeStorage s = some code := by
  obtain ⟨hcount, hentries, _⟩ := validStorage_iff_entries.mp h
  have hparts : ∀ e ∈ s.entries, ∃ code, encodeStorageEntry e = some code := by
    rintro ⟨key, value⟩ he
    obtain ⟨⟨_, hkey⟩, _, hvalue⟩ := hentries _ he
    rw [encodeStorageEntry, encodeBytes, encodeBytes, encodeLen, encodeLen,
      if_pos (hkey.trans_lt (by decide)), if_pos (hvalue.trans_lt (by decide))]
    exact ⟨_, rfl⟩
  obtain ⟨parts, hsequence⟩ := Sequence.exists hparts
  exact ⟨_, encodeStorage_eq_some.mpr ⟨_, if_pos (hcount.trans_lt (by decide)), parts,
    hsequence, rfl⟩⟩

/-- A stream is accepted exactly if it starts with the encoding of a valid storage, which is what is
returned and consumed. Every valid storage has an encoding, and it is read back from it. -/
theorem readStorage_exact :
    (∀ stream s rest, readStorage stream = some (s, rest) ↔
      ∃ code, encodeStorage s = some code ∧ validStorage s = true ∧ stream = code ++ rest) ∧
    ∀ s, validStorage s = true → ∃ code, encodeStorage s = some code ∧
      readStorage code = some (s, []) := by
  refine ⟨fun stream s rest => ?_, fun s hvalid => ?_⟩
  · rw [readStorage_reads stream s rest]
    simp only [and_assoc]
  · obtain ⟨code, hcode⟩ := exists_encodeStorage hvalid
    exact ⟨code, hcode, (readStorage_reads code s []).mpr ⟨code, ⟨hcode, hvalid⟩,
      (append_nil _).symm⟩⟩

/-! ## Program records -/

def readI64 : Reader Byte I64 := do
  let bytes ← takeBytes 8
  ofOption (I64.ofBytes bytes)

def readProgramRecord : Reader Byte ProgramRecord := do
  let codeHash ← Hash.decode
  let code ← readBytes (· ≤ maxProgramCodeSize)
  let owner ← Hash.decode
  let nonce ← readU64
  let deployedAt ← readU64
  let stateValue ← readI64
  let storage ← (if code[4]? = some applicationVersion then readStorage else pure ∅)
  return ⟨codeHash, code, owner, nonce, deployedAt, stateValue, storage⟩

theorem I64.ofBytes_encode (v : I64) : I64.ofBytes v.encode = some v := by
  obtain ⟨v, hlow, hhigh⟩ := v
  have hlt : (v % 2 ^ 64).toNat < 256 ^ 8 := by omega
  have hnonneg : 0 ≤ v % 2 ^ 64 := by omega
  simp only [I64.ofBytes, I64.encode, ofLeBytes_leBytes 8 _ hlt, Int.toNat_of_nonneg hnonneg]
  have hval : (if v % 2 ^ 64 < 2 ^ 63 then v % 2 ^ 64 else v % 2 ^ 64 - 2 ^ 64) = v := by
    split_ifs <;> omega
  rw [hval, I64.ofInt?, dif_pos ⟨hlow, hhigh⟩]

theorem readI64_accepts : Accepts readI64 (fun v code => code = v.encode) := by
  rintro v _ rest rfl
  have htake : Accepts (takeBytes 8) (fun a code => a = code ∧ code.length = 8) :=
    (takeBytes_reads 8).accepts
  have hlength : v.encode.length = 8 := length_leBytes 8 _
  rw [readI64, htake.run_bind ⟨rfl, hlength⟩, ofOption, I64.ofBytes_encode]
  rfl

theorem readProgramRecord_accepts [Crypto] (id : ProgramId) : Accepts readProgramRecord
    (fun r code => r.encode = some code ∧ ProgramRegistry.validateRecord id r = .ok ()) := by
  rintro ⟨codeHash, program, owner, nonce, deployedAt, stateValue, storage⟩ _ rest ⟨hcode, hvalid⟩
  obtain ⟨hstructure, hstorage, hlegacy, _⟩ := ProgramRegistry.validateRecord_eq_ok.mp hvalid
  have hsize : program.length ≤ maxProgramCodeSize := by
    simp only [DeployProgram.validateStructure, bind_eq_ok, rejectIf_eq_ok, not_lt] at hstructure
    obtain ⟨_, _, _, hsize, _⟩ := hstructure
    exact hsize
  have hbytes : Accepts (readBytes (· ≤ maxProgramCodeSize))
      (fun l code => encodeBytes l = some code ∧ l.length ≤ maxProgramCodeSize) :=
        (readBytes_reads _).accepts
  simp only [ProgramRecord.encode, bind_eq_some] at hcode
  obtain ⟨programCode, hprogram, hcode⟩ := hcode
  split_ifs at hcode with hversion
  · simp only [bind_eq_some, return_eq_some] at hcode
    obtain ⟨storageCode, hstorageCode, rfl⟩ := hcode
    simp only [readProgramRecord, append_assoc]
    rw [Hash.decode_reads.accepts.run_bind rfl, hbytes.run_bind ⟨hprogram, hsize⟩,
      Hash.decode_reads.accepts.run_bind rfl, readU64_reads.accepts.run_bind rfl,
      readU64_reads.accepts.run_bind rfl, readI64_accepts.run_bind rfl, if_pos hversion,
      readStorage_reads.accepts.run_bind ⟨hstorageCode, hstorage⟩]
    rfl
  · rw [return_eq_some] at hcode
    subst hcode
    simp only [readProgramRecord, append_assoc]
    rw [Hash.decode_reads.accepts.run_bind rfl, hbytes.run_bind ⟨hprogram, hsize⟩,
      Hash.decode_reads.accepts.run_bind rfl, readU64_reads.accepts.run_bind rfl,
      readU64_reads.accepts.run_bind rfl, readI64_accepts.run_bind rfl, if_neg hversion,
      show storage = ∅ from hlegacy hversion]
    rfl

/-! ## The registry -/

section
variable [Crypto]

/-- One record, with the registry so far and the identifier before. -/
def readProgramEntry :
    ProgramRegistry × Option ProgramId → Reader Byte (ProgramRegistry × Option ProgramId) :=
  fun (registry, previous) => do
    let id ← Hash.decode
    require (∀ p ∈ previous, p < id)
    let record ← readProgramRecord
    ofOption (ProgramRegistry.validateRecord id record).toOption
    let registry ← ofOption (registry.insert id record).toOption
    return (registry, some id)

def readProgramRegistry : Reader Byte ProgramRegistry := do
  let count ← readLe 4
  let (registry, _) ← loop readProgramEntry count (.empty, none)
  return registry

end

/-- The registry after some records. -/
def ProgramRegistry.ofRecords (l : List (ProgramId × ProgramRecord)) : ProgramRegistry :=
  ⟨ofEntries l, l.foldl (fun used e => used.insert e.2.deployment ()) ∅⟩

theorem get?_foldl_deployment {l : List (ProgramId × ProgramRecord)}
    {used : OrderedSet (ProgramId ×ₗ U64)} {d : ProgramId ×ₗ U64} :
    (l.foldl (fun used e => used.insert e.2.deployment ()) used).get? d = some () ↔
      used.get? d = some () ∨ ∃ e ∈ l, e.2.deployment = d := by
  induction l generalizing used with
  | nil => simp
  | cons e rest ih =>
    rw [foldl_cons, ih, get?_insert]
    by_cases hd : d = e.2.deployment
    · simp [hd]
    · simp [hd, Ne.symm hd]

section
variable [Crypto] {r : ProgramRegistry} {tip : Height}

theorem ProgramRegistry.Valid.ofRecords_entries (h : r.Valid tip) :
    ofRecords r.programs.entries = r := by
  have hdeployments : r.programs.entries.foldl (fun used e => used.insert e.2.deployment ()) ∅ =
      r.deployments := by
    apply ext_get?
    intro d
    refine Option.ext fun u => ?_
    rw [get?_foldl_deployment, h.deployments d]
    simp [get?_eq_some_iff]
  obtain ⟨programs, deployments⟩ := r
  rw [ofRecords, ofEntries_entries, hdeployments]

/-- The next record of a valid registry is not taken by the ones before. -/
theorem ProgramRegistry.Valid.insert_next (h : r.Valid tip)
    {done todo : List (ProgramId × ProgramRecord)} {e : ProgramId × ProgramRecord}
    (hsplit : r.programs.entries = done ++ e :: todo) :
    (ofRecords done).insert e.1 e.2 = .ok (ofRecords (done ++ [e])) := by
  have hsorted := r.programs.sorted
  rw [hsplit] at hsorted
  obtain ⟨hdone, _, hlt⟩ := pairwise_append.mp hsorted
  have hmem : ∀ d ∈ done, r.programs.get? d.1 = some d.2 := by
    intro d hd
    exact get?_eq_some_iff.mpr (by rw [hsplit]; exact mem_append_left _ hd)
  have hnext : r.programs.get? e.1 = some e.2 := get?_eq_some_iff.mpr (by rw [hsplit]; simp)
  refine insert_eq_ok.mpr ⟨?_, ?_, ?_⟩
  · refine find_eq_none_of_forall fun d hd => ?_
    change d ∈ (ofEntries done).entries at hd
    rw [entries_ofEntries hdone] at hd
    exact ne_of_lt (hlt d hd e mem_cons_self)
  · by_contra hused
    obtain ⟨u, hu⟩ := Option.ne_none_iff_exists'.mp hused
    rcases get?_foldl_deployment.mp hu with hempty | ⟨d, hd, hdeployment⟩
    · cases hempty
    · have hid := h.unique d.1 e.1 d.2 e.2 (hmem d hd) hnext hdeployment
      exact absurd (hlt d hd e mem_cons_self) (by rw [hid]; exact lt_irrefl _)
  · rw [ofRecords, ofEntries_append, foldl_append]
    rfl

theorem readProgramRegistry_accepts (tip : Height) : Accepts readProgramRegistry
    (fun r code => r.encode = some code ∧ r.Valid tip) := by
  rintro r _ rest ⟨hcode, hvalid⟩
  simp only [ProgramRegistry.encode, bind_eq_some, return_eq_some] at hcode
  obtain ⟨count, hcount, parts, hparts, rfl⟩ := hcode
  have hsequence : Sequence (fun e code => ProgramRegistry.encodeEntry e.1 e.2 = some code)
      r.programs.entries parts.flatten := sequence_mapM.mpr ⟨parts, hparts, rfl⟩
  let state : List (ProgramId × ProgramRecord) → ProgramRegistry × Option ProgramId := fun done =>
    (.ofRecords done, done.getLast?.map Prod.fst)
  have hloop : loop readProgramEntry r.programs.entries.length (state []) (parts.flatten ++ rest) =
      some (state r.programs.entries, rest) := Accepts.loop state hsequence ?_ rest
  · rw [readProgramRegistry, append_assoc, readLe_accepts_encodeLen.run_bind hcount]
    change (loop readProgramEntry r.programs.entries.length (state []) (parts.flatten ++ rest)).bind
      _ = _
    rw [hloop]
    change some (ProgramRegistry.ofRecords r.programs.entries, rest) = _
    rw [hvalid.ofRecords_entries]
  · intro done e todo hsplit first rest hfirst
    have hsorted := r.programs.sorted
    rw [hsplit] at hsorted
    have hget : r.programs.get? e.1 = some e.2 := get?_eq_some_iff.mpr (by rw [hsplit]; simp)
    have hrecord := (hvalid.records e.1 e.2 hget).1
    rw [ProgramRegistry.encodeEntry, Option.map_eq_some_iff] at hfirst
    obtain ⟨recordCode, hrecordCode, rfl⟩ := hfirst
    have hprevious : ∀ p ∈ done.getLast?.map Prod.fst, p < e.1 := by
      intro p hp
      obtain ⟨last, hlast, rfl⟩ := Option.map_eq_some_iff.mp hp
      exact getLast?_lt_of_pairwise hsorted last hlast
    have hnext : state (done ++ [e]) = (.ofRecords (done ++ [e]), some e.1) := by
      simp only [state, getLast?_append, getLast?_singleton, Option.some_or, Option.map_some]
    rw [hnext]
    simp only [state]
    rw [readProgramEntry, append_assoc, Hash.decode_reads.accepts.run_bind rfl,
      run_require hprevious, (readProgramRecord_accepts e.1).run_bind ⟨hrecordCode, hrecord⟩,
        run_ofOption (by rw [hrecord]; rfl),
      run_ofOption (by rw [hvalid.insert_next hsplit]; rfl)]
    rfl

end

/-! ## Assets -/

def readMetadata : Reader Byte Metadata := do
  let name ← readString
  let maxSupply ← readUnits
  let creator ← Owner.decode
  let mintAuthority ← Owner.decode
  return ⟨name, maxSupply, creator, mintAuthority⟩

def readAssetRecord : Reader Byte AssetRecord := do
  let metadata ← readMetadata
  let supply ← readUnits
  let totalMinted ← readUnits
  let mintNonce ← readU64
  let totalBurned ← readUnits
  return ⟨metadata, supply, totalMinted, mintNonce, totalBurned⟩

def readAssetShare : Reader Byte AssetShare := do
  let asset ← Hash.decode
  let amount ← readUnits
  let owner ← Owner.decode
  return ⟨asset, amount, owner⟩

def readAssetState : Reader Byte AssetState := do
  let records ← readMap (readEntry readAssetRecord)
  let shares ← readMap (readEntry readAssetShare)
  return AssetState.rebuildOwnerIndex { AssetState.empty with records, shares }

theorem readMetadata_accepts :
    Accepts readMetadata (fun m code => m.encode = some code ∧ validUtf8 m.name = true) := by
  rintro ⟨name, maxSupply, creator, mintAuthority⟩ _ rest ⟨hcode, hname⟩
  rw [Metadata.encode, Option.map_eq_some_iff] at hcode
  obtain ⟨nameCode, hnameCode, rfl⟩ := hcode
  simp only [readMetadata, append_assoc]
  rw [readString_accepts.run_bind ⟨hnameCode, hname⟩, readUnits_reads.accepts.run_bind rfl,
    Owner.decode_reads.accepts.run_bind rfl, Owner.decode_reads.accepts.run_bind rfl]
  rfl

theorem readAssetRecord_accepts :
    Accepts readAssetRecord (fun r code => r.encode = some code ∧
      validUtf8 r.metadata.name = true) := by
  rintro ⟨metadata, supply, totalMinted, mintNonce, totalBurned⟩ _ rest ⟨hcode, hname⟩
  rw [AssetRecord.encode, Option.map_eq_some_iff] at hcode
  obtain ⟨metadataCode, hmetadata, rfl⟩ := hcode
  simp only [readAssetRecord, append_assoc]
  rw [readMetadata_accepts.run_bind ⟨hmetadata, hname⟩, readUnits_reads.accepts.run_bind rfl,
    readUnits_reads.accepts.run_bind rfl, readU64_reads.accepts.run_bind rfl,
    readUnits_reads.accepts.run_bind rfl]
  rfl

theorem readAssetShare_accepts : Accepts readAssetShare (fun s code => code = s.encode) := by
  rintro ⟨asset, amount, owner⟩ _ rest rfl
  simp only [readAssetShare, AssetShare.encode, append_assoc]
  rw [Hash.decode_reads.accepts.run_bind rfl, readUnits_reads.accepts.run_bind rfl,
    Owner.decode_reads.accepts.run_bind rfl]
  rfl

/-- The asset state that is read back: the canonical maps, with the lookups recomputed. -/
def AssetState.reread (s : AssetState) : AssetState :=
  rebuildOwnerIndex { empty with records := s.records, shares := s.shares }

theorem readAssetState_accepts {s : AssetState} (hcode : s.encode = some code)
    (hnames : ∀ e ∈ s.records.entries, validUtf8 e.2.metadata.name = true) (rest : List Byte) :
    readAssetState (code ++ rest) = some (s.reread, rest) := by
  simp only [AssetState.encode, AssetState.encodeRecords, bind_eq_some, return_eq_some] at hcode
  obtain ⟨_, ⟨count, hcount, parts, hparts, rfl⟩, count', hcount', rfl⟩ := hcode
  have hrecords : Counted (fun e code => ∃ value, (AssetRecord.encode e.2 = some value ∧
      validUtf8 e.2.metadata.name = true) ∧ code = e.1.bytes ++ value) s.records.entries
      (count ++ parts.flatten) := by
    obtain ⟨_, items, hlen, hitems, heq⟩ := (counted_mapM hcount hparts).and hnames
    refine ⟨_, items, hlen, (sequence_congr fun e _ code => ?_).mp hitems, heq⟩
    simp only [Option.map_eq_some_iff, @eq_comm _ code, ← exists_and_right, and_right_comm]
  have hshares : Counted (fun e code => ∃ value, value = AssetShare.encode e.2 ∧
      code = e.1.bytes ++ value)
      s.shares.entries (count' ++ (s.shares.entries.map fun e =>
        e.1.bytes ++ e.2.encode).flatten) := by
    refine ⟨count', _, hcount', (sequence_congr fun e _ code => ?_).mp (sequence_total.mpr rfl),
      rfl⟩
    simp only [exists_eq_left]
  rw [append_assoc (count ++ parts.flatten), append_assoc (count ++ parts.flatten), readAssetState,
    (readMap_accepts (readEntry_accepts readAssetRecord_accepts)).run_bind hrecords,
    (readMap_accepts (readEntry_accepts readAssetShare_accepts)).run_bind hshares]
  rfl

/-! ## The whole state -/

section
variable [Crypto]

def readLedgerState : Reader Byte LedgerState := do
  let utxos ← readUtxoSet
  let totalMined ← readU64
  let totalBurned ← readU64
  let programs ← readProgramRegistry
  let assets ← readAssetState
  return ⟨utxos, ⟨totalMined, totalBurned⟩, programs, assets⟩

end

namespace LedgerState

variable {s : LedgerState}

/-- The state that is read back. -/
def reread (s : LedgerState) : LedgerState := { s with assets := s.assets.reread }

theorem same_reread (s : LedgerState) : Same s.reread s :=
  ⟨rfl, rfl, rfl, rfl, (AssetState.rebuildOwnerIndex_maps _).1,
    (AssetState.rebuildOwnerIndex_maps _).2.1⟩

theorem Sound.reread (h : Sound s) : Sound s.reread := by
  obtain ⟨hrecords, hshares, hcache⟩ := AssetState.rebuildOwnerIndex_maps
    { AssetState.empty with records := s.assets.records, shares := s.assets.shares }
  change s.assets.reread.records = s.assets.records at hrecords
  change s.assets.reread.shares = s.assets.shares at hshares
  refine ⟨h.utxos, h.coin, AssetState.indexed_rebuildOwnerIndex _, ⟨?_, ?_, ?_⟩, ?_⟩
  · rw [show s.reread.assets.shares = s.assets.shares from hshares]
    exact h.supplied.nonzero
  · rw [show s.reread.assets.shares = s.assets.shares from hshares,
      show s.reread.assets.records = s.assets.records from hrecords]
    exact h.supplied.recorded
  · intro a r hr
    rw [show s.reread.assets.records = s.assets.records from hrecords] at hr
    rw [AssetState.supplyOf, show s.reread.assets.shares = s.assets.shares from hshares]
    exact h.supplied.valid a r hr
  · -- no summary is read back
    intro key hkey
    rw [AssetState.supplySnapshot_eq_some, show s.reread.assets.supplyCache = none from hcache]
      at hkey
    cases hkey.1

theorem readLedgerState_accepts [Crypto] {tip : Height} {code : List Byte} (hs : s.Sound)
    (hvalid : s.programs.Valid tip) (hcode : s.encode = some code) (rest : List Byte) :
    readLedgerState (code ++ rest) = some (s.reread, rest) := by
  simp only [LedgerState.encode, bind_eq_some, return_eq_some] at hcode
  obtain ⟨utxos, hutxos, programs, hprograms, assets, hassets, rfl⟩ := hcode
  have hnames : ∀ e ∈ s.assets.records.entries, validUtf8 e.2.metadata.name = true := by
    intro e he
    have hmetadata := (hs.supplied.valid e.1 e.2 (get?_eq_some_iff.mpr he)).metadata
    rw [Metadata.validate, bind_eq_ok] at hmetadata
    obtain ⟨_, hname, _⟩ := hmetadata
    exact validUtf8_of_validateAssetName hname
  simp only [readLedgerState, append_assoc]
  rw [readUtxoSet_accepts.run_bind ⟨hutxos, hs.utxos⟩, readU64_reads.accepts.run_bind rfl,
    readU64_reads.accepts.run_bind rfl,
      (readProgramRegistry_accepts tip).run_bind ⟨hprograms, hvalid⟩]
  change (readAssetState (assets ++ rest)).bind _ = _
  rw [readAssetState_accepts hassets hnames]
  rfl

end LedgerState

end Xparq
