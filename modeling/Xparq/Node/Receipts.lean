import Xparq.Ledger.Headers
import Xparq.Node.Mining
import Xparq.Blockchain.Decode

/-!
# Receipts of pruned journals

The protocol burn of each operation of a block is read from the rollback journals of the ledger. A
node keeps the journals of the last blocks only. Before it drops the older ones it writes their
burns as receipts into its own store, under the hash of the block; if one of them cannot be written,
all journals stay. Later the answer comes from the store.

`protocolBurns_prunings` says that no number of prunings changes an answer for a block of the
canonical chain, and that receipts copied into another store give the same answers there. Receipts
are found by block hash, so the blocks of the chain have to have different hashes.
-/

namespace Xparq

open Machine Outcome OrderedMap Reader List

/-- The tables of a node's store that are read here: auxiliary values and block bodies. -/
structure NodeDatabase where
  auxiliary : OrderedMap (List Byte) (List Byte)
  blocks : OrderedMap Height (List Byte)
  deriving DecidableEq

def auxiliaryGet (db : NodeDatabase) (key : List Byte) : Option (List Byte) := db.auxiliary.get? key

/-- The transaction commits or leaves the store as it is. -/
def auxiliaryPut (commits : Bool) (db : NodeDatabase) (key value : List Byte) :
    Except NodeError NodeDatabase :=
  if commits then .ok { db with auxiliary := db.auxiliary.insert key value }
  else .error (.message "commit auxiliary value")

def hexDigit (n : Nat) : Byte := Fin.ofNat 256 (if n < 10 then 48 + n else 87 + n)

def hexEncode (bytes : List Byte) :
    List Byte := bytes.flatMap fun b => [hexDigit (b.val / 16), hexDigit (b.val % 16)]

/-- What the journals say about the operations of a block. -/
def Ledger.programCallProtocolBurnsForBlock (l : Ledger) (b : Block) : Option (List Zeno) := do
  guard (l.chain.header b.height = some b.header)
  let journals ← l.journals.get? b.height
  let offset := if b.emission.isSome then 1 else 0
  guard (offset ≤ journals.length)
  let operationJournals := journals.drop offset
  guard (operationJournals.length = b.operations.length)
  return operationJournals.map StateRollbackJournal.protocolBurn

def encodeBurns (burns : List Zeno) : Option (List Byte) :=
  (encodeLen burns.length).map (· ++ (burns.map fun burn => leBytes 8 burn.val).flatten)

section
variable [Crypto]

/-- `key`. -/
def receiptKey (b : Block) : List Byte := ascii "protocol-burns-v1/" ++ hexEncode b.hash.bytes

/-- The receipt of a block in the store; its size is checked before it is decoded. -/
def storedBurns (db : NodeDatabase) (b : Block) : Except NodeError (List Zeno) := do
  let bytes ← okOr (auxiliaryGet db (receiptKey b))
    (.message "historical execution receipts are missing")
  let expectedSize ← okOr (ofNat? (2 ^ 64) (b.operations.length * 8 + 4))
    (.message "receipt size overflow")
  rejectIf (bytes.length ≠ expectedSize.val) (.message "historical receipt size is invalid")
  let burns ← okOr (all (readVec readU64) bytes) (.message "decode historical receipts")
  rejectIf (burns.length ≠ b.operations.length) (.message "historical receipt count is invalid")
  return burns

def protocolBurns (db : NodeDatabase) (l : Ledger) (b : Block) : Except NodeError (List Zeno) := do
  rejectIf (l.chain.header b.height ≠ some b.header)
    (.message "receipt body does not match canonical header")
  if b.operations = [] then return []
  match l.programCallProtocolBurnsForBlock b with
  | some burns => return burns
  | none => storedBurns db b

def copyReceipt (commits : Bool) (source target : NodeDatabase) (l : Ledger) (b : Block) :
    Except NodeError NodeDatabase :=
  if b.operations = [] then .ok target
  else do
    let burns ← protocolBurns source l b
    let bytes ← okOr (encodeBurns burns) (.codec .encodeFailed)
    auxiliaryPut commits target (receiptKey b) bytes

def decodePinnedLocalBody (height : Height) (header : Header) (bytes : List Byte) :
    Except NodeError Block := do
  rejectIf (bytes = [] ∨ bytes.length > maxBlockSize)
    (.message "local body size is outside allowed range")
  let block ← okOr (all readBlock bytes) (.message "local body decode failed")
  rejectIf (block.height ≠ height ∨ block.header ≠ header)
    (.message "local body does not match pinned canonical header; retry or recover")
  let root ← (calculateMerkleRoot block.emission block.operations).mapError .codec
  rejectIf (root ≠ header.merkleRoot)
    (.message "local body Merkle commitment failed; recovery is required")
  return block

omit [Crypto] in
/-- The body at a height, if the store has one. -/
def readBlockAtHeight (db : NodeDatabase) (height : Height) :
    Except NodeError (Option (List Byte)) :=
  match db.blocks.get? height with
  | none => .ok none
  | some bytes => do
    rejectIf (bytes = [] ∨ bytes.length > maxBlockSize)
      (.message "stored block size is outside allowed range")
    return some bytes

/-- The body is resident or read from the store. -/
def canonicalBlock (db : NodeDatabase) (l : Ledger) (height : Height) : Except NodeError Block := do
  let header ← okOr (l.chain.header height) (.message "block was not found in this chain")
  match l.chain.block height with
  | some block => do
    rejectIf (block.header ≠ header) (.message "resident body does not match pinned header")
    return block
  | none => do
    let stored ← readBlockAtHeight db height
    let bytes ← okOr stored (.message "local canonical body is missing; recovery is required")
    decodePinnedLocalBody height header bytes

/-- Write the receipts of these heights, up to the first that fails. -/
def archive (commits : Height → Bool) (l : Ledger) :
    List Height → NodeDatabase → Bool × NodeDatabase
  | [], db => (true, db)
  | height :: rest, db =>
    match (canonicalBlock db l height).bind fun b => copyReceipt (commits height) db db l b with
    | .error _ => (false, db)
    | .ok db => archive commits l rest db

def pruneJournalsWithWindow (commits : Height → Bool) (db : NodeDatabase) (l : Ledger)
    (retainedBlocks : U64) : Except NodeError (NodeDatabase × Ledger) := do
  let tip ← okOr l.chain.tipHeight (.message "cannot prune an empty ledger")
  let first : Height := ⟨tip.val - (max retainedBlocks.val 1 - 1), by omega⟩
  let expired := l.journals.keys.takeWhile fun height => height < first
  let (archived, db) := archive commits l expired db
  -- receipts that could not be written leave all undo data
  if archived then return (db, l.pruneRollbackJournalsBefore first) else return (db, l)

/-! ## Keys and bytes of receipts -/

omit [Crypto] in
theorem hexDigit_injective {m n : Nat} (hm : m < 16) (hn : n < 16) (h : hexDigit m = hexDigit n) :
    m = n := by
  have hall : ∀ a b : Fin 16, hexDigit a.val = hexDigit b.val → a = b := by decide
  exact congrArg Fin.val (hall ⟨m, hm⟩ ⟨n, hn⟩ h)

omit [Crypto] in
theorem hexEncode_injective {l m : List Byte} (h : hexEncode l = hexEncode m) : l = m := by
  induction l generalizing m with
  | nil =>
    cases m with
    | nil => rfl
    | cons b m => cases h
  | cons a l ih =>
    cases m with
    | nil => cases h
    | cons b m =>
      simp only [hexEncode, flatMap_cons, cons_append, nil_append, List.cons.injEq] at h
      obtain ⟨hhigh, hlow, hrest⟩ := h
      have hhigh := hexDigit_injective (by omega) (by omega) hhigh
      have hlow := hexDigit_injective (by omega) (by omega) hlow
      have hab : a = b := Fin.ext (by omega)
      rw [hab, ih hrest]

variable {bytes : List Byte} {l' : Ledger} {b' : Block} {retainedBlocks : U64}

theorem hash_eq_of_receiptKey {b : Block} (h : receiptKey b = receiptKey b') : b.hash = b'.hash :=
  Hash.bytes_injective (hexEncode_injective (append_cancel_left h))

omit [Crypto] in
theorem encodeBurns_some {burns : List Zeno} (h : encodeBurns burns = some bytes) :
    burns.length < 2 ^ 32 ∧ bytes.length = burns.length * 8 + 4 ∧
      all (readVec readU64) bytes = some burns := by
  obtain ⟨count, hcount, rfl⟩ := Option.map_eq_some_iff.mp h
  have hlength : burns.length < 2 ^ 32 ∧ leBytes 4 burns.length = count := by
    simpa [encodeLen] using hcount
  refine ⟨hlength.1, ?_, (readVec_accepts readU64_reads.accepts).all (counted_total hcount)⟩
  rw [length_append, ← hlength.2, length_leBytes, length_sequence (w := 8) (by simp)]
  ring

theorem storedBurns_put {db : NodeDatabase} {b : Block} {burns : List Zeno}
    (hbytes : encodeBurns burns = some bytes) (hlength : burns.length = b.operations.length) :
    storedBurns { db with auxiliary := db.auxiliary.insert (receiptKey b) bytes } b =
      .ok burns := by
  obtain ⟨hcount, hsize, hdecode⟩ := encodeBurns_some hbytes
  have hget : auxiliaryGet { db with auxiliary := db.auxiliary.insert (receiptKey b) bytes }
      (receiptKey b) =
      some bytes := get?_insert_self _ _ _
  have hfit : ofNat? (2 ^ 64) (b.operations.length * 8 + 4) =
      some ⟨b.operations.length * 8 + 4, by omega⟩ :=
    ofNat?_eq_some.mpr rfl
  rw [hlength] at hsize
  rw [storedBurns, hget, hfit, okOr, ok_bind, okOr, ok_bind, rejectIf, if_neg (not_not.mpr hsize),
    ok_bind, hdecode, okOr, ok_bind, rejectIf, if_neg (not_not.mpr hlength)]
  rfl

theorem storedBurns_put_other {db : NodeDatabase} {b : Block} {key : List Byte}
    (h : receiptKey b ≠ key) :
    storedBurns { db with auxiliary := db.auxiliary.insert key bytes } b = storedBurns db b := by
  have hget : auxiliaryGet { db with auxiliary := db.auxiliary.insert key bytes } (receiptKey b) =
      auxiliaryGet db (receiptKey b) := by
    rw [auxiliaryGet, get?_insert, if_neg h]
    rfl
  rw [storedBurns, storedBurns, hget]

/-! ## What the functions do -/

variable {db db' source target target' : NodeDatabase} {l : Ledger} {b : Block} {burns : List Zeno}
  {commits : Bool}

theorem protocolBurns_eq (hheader : l.chain.header b.height = some b.header)
    (hops : b.operations ≠ []) :
    protocolBurns db l b = match l.programCallProtocolBurnsForBlock b with
      | some burns => .ok burns
      | none => storedBurns db b := by
  rw [protocolBurns, rejectIf, if_neg (not_not.mpr hheader), ok_bind, if_neg hops]
  rfl

theorem protocolBurns_nil (hheader : l.chain.header b.height = some b.header)
    (hops : b.operations = []) : protocolBurns db l b = .ok [] := by
  rw [protocolBurns, rejectIf, if_neg (not_not.mpr hheader), ok_bind, if_pos hops]
  rfl

theorem header_of_protocolBurns (h : protocolBurns db l b = .ok burns) :
    l.chain.header b.height = some b.header := by
  simp only [protocolBurns, bind_eq_ok, rejectIf_eq_ok, not_not] at h
  obtain ⟨_, hheader, _⟩ := h
  exact hheader

omit [Crypto] in
theorem length_programCallProtocolBurns (h : l.programCallProtocolBurnsForBlock b = some burns) :
    burns.length = b.operations.length := by
  simp only [Ledger.programCallProtocolBurnsForBlock, bind_eq_some, Option.guard_eq_some',
    return_eq_some] at h
  obtain ⟨_, _, journals, _, _, _, _, hlength, rfl⟩ := h
  rw [length_map, hlength]

theorem length_storedBurns (h : storedBurns db b = .ok burns) :
    burns.length = b.operations.length := by
  simp only [storedBurns, bind_eq_ok, rejectIf_eq_ok, not_not, return_eq_ok] at h
  obtain ⟨_, _, _, _, _, _, _, _, _, hlength, rfl⟩ := h
  exact hlength

theorem length_protocolBurns (h : protocolBurns db l b = .ok burns) (hops : b.operations ≠ []) :
    burns.length = b.operations.length := by
  rw [protocolBurns_eq (header_of_protocolBurns h) hops] at h
  split at h
  · next hjournal =>
    cases h
    exact length_programCallProtocolBurns hjournal
  · exact length_storedBurns h

/-- A copied receipt is written under the block's key, unless the block has no operations. -/
theorem copyReceipt_ok (h : copyReceipt commits source target l b = .ok target') :
    (b.operations = [] ∧ target' = target) ∨ (b.operations ≠ [] ∧ ∃ burns bytes,
      protocolBurns source l b = .ok burns ∧ encodeBurns burns = some bytes ∧
      target' = { target with auxiliary := target.auxiliary.insert (receiptKey b) bytes }) := by
  rw [copyReceipt] at h
  split_ifs at h with hops
  · cases h
    exact .inl ⟨hops, rfl⟩
  · simp only [bind_eq_ok, okOr_eq_ok] at h
    obtain ⟨burns, hburns, bytes, hbytes, hput⟩ := h
    rw [auxiliaryPut] at hput
    split_ifs at hput
    cases hput
    exact .inr ⟨hops, burns, bytes, hburns, hbytes, rfl⟩

omit [Crypto] in
theorem readBlockAtHeight_some {height : Height}
    (h : readBlockAtHeight db height = .ok (some bytes)) : db.blocks.get? height = some bytes := by
  unfold readBlockAtHeight at h
  split at h
  · cases h
  · rename_i hbytes
    simp only [bind_eq_ok, return_eq_ok, Option.some.injEq] at h
    obtain ⟨_, _, rfl⟩ := h
    exact hbytes

/-- A body that is read has the pinned header; one that comes from the store decodes to it. -/
theorem canonicalBlock_ok {height : Height} (h : canonicalBlock db l height = .ok b) :
    l.chain.header height = some b.header ∧
      (l.chain.block height = some b ∨ b.height = height ∧
        ∃ bytes, db.blocks.get? height = some bytes ∧ all readBlock bytes = some b) := by
  simp only [canonicalBlock, bind_eq_ok, okOr_eq_ok] at h
  obtain ⟨header, hheader, h⟩ := h
  split at h
  · rename_i hblock
    simp only [bind_eq_ok, rejectIf_eq_ok, not_not, return_eq_ok] at h
    obtain ⟨_, rfl, rfl⟩ := h
    exact ⟨hheader, .inl hblock⟩
  · simp only [decodePinnedLocalBody, bind_eq_ok, okOr_eq_ok, rejectIf_eq_ok, not_or, not_not,
      return_eq_ok] at h
    obtain ⟨_, hstored, bytes, rfl, _, _, _, hdecode, _, ⟨hheight, rfl⟩, _, _, _, _, rfl⟩ := h
    exact ⟨hheader, .inr ⟨hheight, bytes, readBlockAtHeight_some hstored, hdecode⟩⟩

theorem canonicalBlock_congr (h : db.blocks = db'.blocks) (l : Ledger) (height : Height) :
    canonicalBlock db l height = canonicalBlock db' l height := by
  rw [canonicalBlock, canonicalBlock, readBlockAtHeight, readBlockAtHeight, h]

/-! ## Pruning -/

/-- The blocks of the chain have different hashes. -/
def DistinctHashes (c : Chain) : Prop := (c.headers.entries.map fun e => e.2.hash).Nodup

theorem DistinctHashes.height_eq {c : Chain} (h : DistinctHashes c) {k k' : Height} {x x' : Header}
    (hx : c.header k = some x) (hx' : c.header k' = some x') (hhash : x.hash = x'.hash) :
    k = k' := by
  have hmem := get?_eq_some_iff.mp hx
  have hmem' := get?_eq_some_iff.mp hx'
  have hentry := inj_on_of_nodup_map h hmem hmem' hhash
  exact congrArg Prod.fst hentry

/-- A block of the canonical chain: its header is there, and no other body is found for it. -/
structure Canonical (db : NodeDatabase) (l : Ledger) (b : Block) : Prop where
  header : l.chain.header b.height = some b.header
  body : ∀ b', canonicalBlock db l b.height = .ok b' → b' = b

/-- The answers of `db` are those of `db₀`. -/
structure Keeps (l : Ledger) (db₀ db : NodeDatabase) : Prop where
  blocks : db.blocks = db₀.blocks
  burns : ∀ b, Canonical db₀ l b → protocolBurns db l b = protocolBurns db₀ l b

/-- The store alone has the answer for a height. -/
def Archived (l : Ledger) (db₀ db : NodeDatabase) (height : Height) : Prop :=
  ∀ b, Canonical db₀ l b → b.height = height → b.operations ≠ [] →
    storedBurns db b = protocolBurns db₀ l b

variable {db₀ : NodeDatabase} {height : Height}

theorem Canonical.eq_of_receiptKey {b : Block} (hdistinct : DistinctHashes l.chain)
    (hb : Canonical db₀ l b) (hb' : canonicalBlock db₀ l height = .ok b')
    (hkey : receiptKey b = receiptKey b') : b' = b := by
  have hhash : b.header.hash = b'.header.hash := hash_eq_of_receiptKey hkey
  have hheight := hdistinct.height_eq hb.header (canonicalBlock_ok hb').1 hhash
  rw [← hheight] at hb'
  exact hb.body b' hb'

theorem Keeps.copyReceipt (hdistinct : DistinctHashes l.chain) (h : Keeps l db₀ db)
    (hblock : canonicalBlock db l height = .ok b)
    (hcopy : copyReceipt commits db db l b = .ok db') :
    Keeps l db₀ db' ∧ Archived l db₀ db' height ∧ ∀ k, Archived l db₀ db k →
      Archived l db₀ db' k := by
  rw [canonicalBlock_congr h.blocks] at hblock
  rcases copyReceipt_ok hcopy with ⟨hops, rfl⟩ | ⟨hops, burns, bytes, hburns, hbytes, rfl⟩
  · refine ⟨h, ?_, fun _ => id⟩
    rintro c hc rfl hcops
    rw [hc.body b hblock] at hops
    exact absurd hops hcops
  · have hheader := header_of_protocolBurns hburns
    have hput : storedBurns { db with auxiliary := db.auxiliary.insert (receiptKey b) bytes } b =
        .ok burns :=
      storedBurns_put hbytes (length_protocolBurns hburns hops)
    -- a canonical block has the key of this one only if it is this one
    have hstored : ∀ c, Canonical db₀ l c → b = c ∨
        storedBurns { db with auxiliary := db.auxiliary.insert (receiptKey b) bytes } c =
          storedBurns db c := by
      intro c hc
      by_cases hkey : receiptKey c = receiptKey b
      · exact .inl (hc.eq_of_receiptKey hdistinct hblock hkey)
      · exact .inr (storedBurns_put_other hkey)
    refine ⟨⟨h.blocks, fun c hc => ?_⟩, ?_, fun k hk c hc hheight hcops => ?_⟩
    · by_cases hcops : c.operations = []
      · rw [protocolBurns_nil hc.header hcops, protocolBurns_nil hc.header hcops]
      · rw [← h.burns c hc]
        rcases hstored c hc with rfl | hsame
        · rw [protocolBurns_eq hheader hops, hput, hburns]
          rw [protocolBurns_eq hheader hops] at hburns
          split
          · next hjournal =>
            rw [hjournal] at hburns
            exact hburns
          · rfl
        · rw [protocolBurns_eq hc.header hcops, protocolBurns_eq hc.header hcops, hsame]
    · rintro c hc rfl _
      obtain rfl := hc.body b hblock
      rw [hput, ← hburns, h.burns _ hc]
    · rcases hstored c hc with rfl | hsame
      · rw [hput, ← hburns, h.burns _ hc]
      · rw [hsame]
        exact hk c hc hheight hcops

/-- What was archived stays so, and a complete pass archives all the heights it was given. -/
theorem Keeps.archive (hdistinct : DistinctHashes l.chain) (commits : Height → Bool)
    (heights : List Height) (h : Keeps l db₀ db) :
    Keeps l db₀ (archive commits l heights db).2 ∧
      ((archive commits l heights db).1 = true → ∀ k, (Archived l db₀ db k ∨ k ∈ heights) →
        Archived l db₀ (archive commits l heights db).2 k) := by
  induction heights generalizing db with
  | nil =>
    refine ⟨h, fun _ k hk => ?_⟩
    rcases hk with hk | hk
    · exact hk
    · cases hk
  | cons height heights ih =>
    rw [Xparq.archive]
    cases hstep : (canonicalBlock db l height).bind fun b =>
      Xparq.copyReceipt (commits height) db db l b with
    | error e => exact ⟨h, nofun⟩
    | ok db' =>
      obtain ⟨b, hblock, hcopy⟩ := bind_eq_ok.mp hstep
      obtain ⟨hkeeps, harchived, hstays⟩ := h.copyReceipt hdistinct hblock hcopy
      obtain ⟨hfinal, hall⟩ := ih hkeeps
      refine ⟨hfinal, fun hdone k hk => hall hdone k ?_⟩
      rcases hk with hk | hk
      · exact .inl (hstays k hk)
      · rcases mem_cons.mp hk with rfl | hk
        · exact .inl harchived
        · exact .inr hk

omit [Crypto] in
theorem programCallProtocolBurns_none (h : l.journals.get? b.height = none) :
    l.programCallProtocolBurnsForBlock b = none := by
  rw [Ledger.programCallProtocolBurnsForBlock, h]
  cases (guard (l.chain.header b.height = some b.header) : Option Unit) <;> rfl

omit [Crypto] in
theorem programCallProtocolBurns_prune {tip first : Height} (htip : l.chain.tipHeight = some tip)
    (hfirst : first ≤ tip) (b : Block) :
    (l.pruneRollbackJournalsBefore first).programCallProtocolBurnsForBlock b =
      if first ≤ b.height then l.programCallProtocolBurnsForBlock b else none := by
  have hget : (l.pruneRollbackJournalsBefore first).journals.get? b.height =
      if first ≤ b.height then l.journals.get? b.height else none := by
    rw [Ledger.pruneRollbackJournalsBefore, htip]
    simp only [min_eq_left hfirst]
    rw [get?_retain]
    split_ifs with hle
    · cases l.journals.get? b.height <;> simp [hle]
    · cases l.journals.get? b.height <;> simp [hle]
  have hchain : (l.pruneRollbackJournalsBefore first).chain = l.chain := rfl
  by_cases hle : first ≤ b.height
  · rw [if_pos hle] at hget ⊢
    rw [Ledger.programCallProtocolBurnsForBlock, Ledger.programCallProtocolBurnsForBlock, hget,
      hchain]
  · rw [if_neg hle] at hget ⊢
    exact programCallProtocolBurns_none hget

theorem pruneJournalsWithWindow_ok {commits : Height → Bool}
    (h : pruneJournalsWithWindow commits db l retainedBlocks = .ok (db', l')) :
    ∃ tip first, l.chain.tipHeight = some tip ∧
      first ≤ tip ∧
      db' = (archive commits l (l.journals.keys.takeWhile fun height => height < first) db).2 ∧
      (l' = l ∨
        (archive commits l (l.journals.keys.takeWhile fun height => height < first) db).1 = true ∧
        l' = l.pruneRollbackJournalsBefore first) := by
  simp only [pruneJournalsWithWindow, bind_eq_ok, okOr_eq_ok] at h
  obtain ⟨tip, htip, h⟩ := h
  have hfirst : (⟨tip.val - (max retainedBlocks.val 1 - 1), by omega⟩ : Height) ≤ tip :=
    Fin.le_def.mpr (Nat.sub_le _ _)
  refine ⟨tip, _, htip, hfirst, ?_⟩
  split_ifs at h with harchived
  · cases h
    exact ⟨rfl, .inr ⟨harchived, rfl⟩⟩
  · cases h
    exact ⟨rfl, .inl rfl⟩

theorem protocolBurns_prune (hdistinct : DistinctHashes l.chain) {commits : Height → Bool}
    (h : pruneJournalsWithWindow commits db l retainedBlocks = .ok (db', l')) :
    db'.blocks = db.blocks ∧ l'.chain = l.chain ∧
      ∀ b, Canonical db l b → protocolBurns db' l' b = protocolBurns db l b := by
  obtain ⟨tip, first, htip, hfirst, rfl, hl'⟩ := pruneJournalsWithWindow_ok h
  obtain ⟨hkeeps, hall⟩ :=
    Keeps.archive hdistinct commits (l.journals.keys.takeWhile fun height => height < first)
    (⟨rfl, fun _ _ => rfl⟩ : Keeps l db db)
  rcases hl' with rfl | ⟨hdone, rfl⟩
  · exact ⟨hkeeps.blocks, rfl, hkeeps.burns⟩
  · refine ⟨hkeeps.blocks, rfl, fun b hb => ?_⟩
    have hchain : (l.pruneRollbackJournalsBefore first).chain.header b.height = some b.header :=
      hb.header
    by_cases hops : b.operations = []
    · rw [protocolBurns_nil hchain hops, protocolBurns_nil hb.header hops]
    · rw [protocolBurns_eq hchain hops, programCallProtocolBurns_prune htip hfirst]
      split_ifs with hle
      · rw [← hkeeps.burns b hb, protocolBurns_eq hb.header hops]
      · cases hjournals : l.journals.get? b.height with
        | some journals =>
          have hexpired := mem_takeWhile_keys hjournals (not_le.mp hle)
          exact hall hdone b.height (.inr hexpired) b hb rfl hops
        | none =>
          -- nothing was dropped for this height: the answer came from the store before
          rw [← hkeeps.burns b hb, protocolBurns_eq hb.header hops,
            programCallProtocolBurns_none hjournals]

/-- Any number of prunings, with any windows. A pruning of an empty ledger fails and does nothing.
-/
def prunings : List (U64 × (Height → Bool)) → NodeDatabase × Ledger → NodeDatabase × Ledger
  | [], node => node
  | (retainedBlocks, commits) :: rest, (db, l) =>
    match pruneJournalsWithWindow commits db l retainedBlocks with
    | .ok node => prunings rest node
    | .error _ => prunings rest (db, l)

theorem Canonical.congr {b : Block} (h : Canonical db l b) (hblocks : db'.blocks = db.blocks)
    (hchain : l'.chain = l.chain) : Canonical db' l' b := by
  refine ⟨hchain ▸ h.header, fun b' hb' => h.body b' ?_⟩
  rw [canonicalBlock_congr hblocks, canonicalBlock, hchain] at hb'
  rw [canonicalBlock]
  exact hb'

/-- Pruning by pruning; one that fails leaves everything as it is. -/
theorem protocolBurns_run (hdistinct : DistinctHashes l.chain)
    (windows : List (U64 × (Height → Bool))) (hb : Canonical db l b) :
    protocolBurns (prunings windows (db, l)).1 (prunings windows (db, l)).2 b =
      protocolBurns db l b := by
  induction windows generalizing db l with
  | nil => rfl
  | cons window windows ih =>
    obtain ⟨retainedBlocks, commits⟩ := window
    rw [prunings]
    cases hprune : pruneJournalsWithWindow commits db l retainedBlocks with
    | error e => exact ih hdistinct hb
    | ok node =>
      obtain ⟨hblocks, hchain, hburns⟩ := protocolBurns_prune hdistinct hprune
      rw [← hburns b hb]
      exact ih (hchain ▸ hdistinct) (hb.congr hblocks hchain)

/-! ## Other stores -/

/-- Receipts of several blocks go into another store. -/
def copyReceipts (commits : Block → Bool) (source : NodeDatabase) (l : Ledger) (blocks : List Block)
    (target : NodeDatabase) : Except NodeError NodeDatabase :=
  blocks.foldlM (fun target b => copyReceipt (commits b) source target l b) target

theorem canonical_of_canonicalBlock (h : canonicalBlock db l b.height = .ok b) :
    Canonical db l b := by
  refine ⟨(canonicalBlock_ok h).1, fun b' hb' => ?_⟩
  rw [h] at hb'
  cases hb'
  rfl

/-- A receipt once copied stays: the copies of other blocks have other keys, as their hashes differ.
-/
theorem storedBurns_copyReceipts {commits : Block → Bool} {blocks : List Block}
    (hdistinct : DistinctHashes l.chain)
    (hblocks : ∀ b ∈ blocks, canonicalBlock source l b.height = .ok b)
    (h : copyReceipts commits source l blocks target = .ok target') (hb : Canonical source l b)
    (hops : b.operations ≠ [])
    (hstored : b ∈ blocks ∨ storedBurns target b = protocolBurns source l b) :
    storedBurns target' b = protocolBurns source l b := by
  induction blocks generalizing target with
  | nil =>
    cases h
    exact hstored.resolve_left not_mem_nil
  | cons c blocks ih =>
    rw [copyReceipts, foldlM_cons, bind_eq_ok] at h
    obtain ⟨target₁, hcopy, hrest⟩ := h
    refine ih (fun d hd => hblocks d (mem_cons_of_mem _ hd)) hrest ?_
    by_cases hmem : b ∈ blocks
    · exact .inl hmem
    · refine .inr ?_
      have hc := hblocks c mem_cons_self
      rcases copyReceipt_ok hcopy with ⟨hcops, rfl⟩ | ⟨hcops, burns, bytes, hburns, hbytes, rfl⟩
      · rcases hstored with hstored | hstored
        · rcases mem_cons.mp hstored with rfl | hstored
          · exact absurd hcops hops
          · exact absurd hstored hmem
        · exact hstored
      · by_cases hkey : receiptKey b = receiptKey c
        · obtain rfl := hb.eq_of_receiptKey hdistinct hc hkey
          rw [storedBurns_put hbytes (length_protocolBurns hburns hcops), hburns]
        · rw [storedBurns_put_other hkey]
          refine hstored.resolve_left fun hstored => ?_
          rcases mem_cons.mp hstored with rfl | hstored
          · exact hkey rfl
          · exact hmem hstored

/-- No number of prunings changes what is answered for a block of the canonical chain, and a store
that the receipts of blocks have been copied to gives the same answers for them, with every ledger
that does not say otherwise itself. -/
theorem protocolBurns_prunings (db : NodeDatabase) (l : Ledger)
    (hdistinct : DistinctHashes l.chain) :
    (∀ windows b, Canonical db l b →
      protocolBurns (prunings windows (db, l)).1 (prunings windows (db, l)).2 b =
      protocolBurns db l b) ∧
    ∀ commits blocks target target', (∀ b ∈ blocks, canonicalBlock db l b.height = .ok b) →
      copyReceipts commits db l blocks target = .ok target' → ∀ b ∈ blocks, ∀ there : Ledger,
        there.chain.header b.height = some b.header →
        (∀ burns, there.programCallProtocolBurnsForBlock b = some burns →
        protocolBurns db l b = .ok burns) →
        protocolBurns target' there b = protocolBurns db l b := by
  refine ⟨fun windows b hb => protocolBurns_run hdistinct windows hb, ?_⟩
  intro commits blocks target target' hblocks hcopy b hmem there hheader hjournals
  have hb := canonical_of_canonicalBlock (hblocks b hmem)
  by_cases hops : b.operations = []
  · rw [protocolBurns_nil hheader hops, protocolBurns_nil hb.header hops]
  · rw [protocolBurns_eq hheader hops]
    cases hthere : there.programCallProtocolBurnsForBlock b with
    | some burns => exact (hjournals burns hthere).symm
    | none => exact storedBurns_copyReceipts hdistinct hblocks hcopy hb hops (.inl hmem)

end

section Sample

attribute [local instance] Crypto.checksum

/-- A block with one operation. -/
def sampleReceiptBlock (height : Height) (nonce : U64) : Block where
  header := ⟨0, 0, 0, 0, 0, nonce⟩
  height := height
  emission := none
  operations :=
    [.programCall ⟨1, ⟨.vm, 0, []⟩, ⟨1, [], [], ⟨0⟩⟩, ⟨0, ⟨.mlDsa44, []⟩, ⟨.mlDsa44, []⟩⟩⟩]

/-- Two blocks that burned five and seven. -/
def sampleReceiptLedger : Ledger where
  applications := systemApplications
  chain := ⟨ofEntries [(0, (sampleReceiptBlock 0 0).header), (1, (sampleReceiptBlock 1 1).header)],
    ofEntries [(0, sampleReceiptBlock 0 0), (1, sampleReceiptBlock 1 1)], some 1,
      some (sampleReceiptBlock 1 1).hash⟩
  state := .empty
  journals := ofEntries [(0, [⟨some { CoinRollbackJournal.empty with burned := 5 }, none, none⟩]),
    (1, [⟨some { CoinRollbackJournal.empty with burned := 7 }, none, none⟩])]
  chainContext := none

/-- The pruned ledger answers from its own store, and from an empty one that both receipts were
copied to. -/
theorem sampleReceipt_prunings :
    ∃ db l target, prunings [(1, fun _ => true)] (⟨∅, ∅⟩, sampleReceiptLedger) = (db, l) ∧
    copyReceipts (fun _ => true) ⟨∅, ∅⟩ sampleReceiptLedger [sampleReceiptBlock 0 0,
      sampleReceiptBlock 1 1] ⟨∅, ∅⟩ =
      .ok target ∧
    l.programCallProtocolBurnsForBlock (sampleReceiptBlock 0 0) = none ∧
    protocolBurns db l (sampleReceiptBlock 0 0) = .ok [5] ∧
    protocolBurns target l (sampleReceiptBlock 0 0) = .ok [5] := by
  have hdistinct : DistinctHashes sampleReceiptLedger.chain := by
    unfold DistinctHashes
    decide +kernel
  have hblocks : ∀ b ∈ [sampleReceiptBlock 0 0, sampleReceiptBlock 1 1],
      canonicalBlock ⟨∅, ∅⟩ sampleReceiptLedger b.height = .ok b := by decide +kernel
  have hbefore : protocolBurns ⟨∅, ∅⟩ sampleReceiptLedger (sampleReceiptBlock 0 0) = .ok [5] := rfl
  have hpruned : (prunings [(1, fun _ => true)] (⟨∅, ∅⟩,
      sampleReceiptLedger)).2.programCallProtocolBurnsForBlock
      (sampleReceiptBlock 0 0) = none := by decide +kernel
  have hheader : (prunings [(1, fun _ => true)] (⟨∅, ∅⟩, sampleReceiptLedger)).2.chain.header 0 =
      some (sampleReceiptBlock 0 0).header := by decide +kernel
  obtain ⟨hkept, hcopied⟩ := protocolBurns_prunings ⟨∅, ∅⟩ sampleReceiptLedger hdistinct
  obtain ⟨target, htarget⟩ : ∃ target, copyReceipts (fun _ => true) ⟨∅, ∅⟩ sampleReceiptLedger
      [sampleReceiptBlock 0 0, sampleReceiptBlock 1 1] ⟨∅, ∅⟩ = .ok target :=
        exists_of_isOk (by decide +kernel)
  have hfirst := mem_cons_self (a := sampleReceiptBlock 0 0) (l := [sampleReceiptBlock 1 1])
  have hown := hkept [(1, fun _ => true)] _ (canonical_of_canonicalBlock (hblocks _ hfirst))
  generalize prunings [(1, fun _ => true)] (⟨∅, ∅⟩, sampleReceiptLedger) = pruned
    at hpruned hheader hown
  refine ⟨pruned.1, pruned.2, target, rfl, htarget, hpruned, hown.trans hbefore, ?_⟩
  refine (hcopied _ _ _ _ hblocks htarget _ hfirst pruned.2 hheader fun burns hburns => ?_).trans
    hbefore
  rw [hpruned] at hburns
  cases hburns

end Sample

end Xparq
