import Xparq.Node.SnapshotStore
import Xparq.Node.ResidentBodies

/-!
# Checkpoints follow the stored chain

A checkpoint is written once, for the bodies that are stored then. Later the chain grows, or
everything from some height on is replaced. `Database.Vouched` says that a checkpoint is always the
record that validation would write for the bodies that are stored now: appending leaves the bodies
below alone, and a replacement drops the checkpoints above the last height at which old and new
bodies agree.
-/

namespace Xparq

open Machine Outcome OrderedMap List

/-! ## Transactions -/

/-- A stream of the blocks of a chain: they come in the order of their heights, from zero on. -/
structure ChainStream where
  entries : BlockStream
  heights : ∀ (i : Nat) (block : StoredCanonicalBlock), entries[i]? = some (.ok block) →
    block.height.val = i

inductive StorageTransaction
  | append (block : StoredCanonicalBlock) (mempool : List (List Byte))
  | replace (stream : ChainStream) (mempool : List (List Byte))
      (snapshot : Option (U64 × List Byte))
  | putSnapshot (identity : NodeIdentity) (height : U64) (bytes : List Byte)
      (headers : Option (List (Height × Header)))

/-- The snapshot a transaction brings. -/
def StorageTransaction.snapshotBytes : StorageTransaction → Option (List Byte)
  | append _ _ => none
  | replace _ _ snapshot => snapshot.map Prod.snd
  | putSnapshot _ _ bytes _ => some bytes

/-- All snapshots that a run brings. -/
def snapshotsOf (ts : List StorageTransaction) : Set (List Byte) :=
  {bytes | ∃ t ∈ ts, t.snapshotBytes = some bytes}

section
variable [Crypto]

def StorageTransaction.run (db : Database) : StorageTransaction → Except NodeError Database
  | append block mempool => db.appendBlockAndReplaceMempool block mempool
  | replace stream mempool snapshot =>
    db.replaceBlocksMempoolAndSnapshotStream stream.entries mempool snapshot
  | putSnapshot identity height bytes headers => db.putSnapshotInner identity height bytes headers

namespace Database

/-- A transaction that fails leaves the database as it is. -/
def commit (db : Database) (t : StorageTransaction) : Database := (t.run db).toOption.getD db

/-- The database after a sequence of transactions. -/
def commits (ts : List StorageTransaction) : Database := ts.foldl commit empty

theorem commit_of_ok {db db' : Database} {t : StorageTransaction} (h : t.run db = .ok db') :
    db.commit t = db' := by
  rw [commit, h]
  rfl

theorem commits_concat (ts : List StorageTransaction) (t : StorageTransaction) :
    commits (ts ++ [t]) = (commits ts).commit t := by
  rw [commits, foldl_append]
  rfl

/-- Induction along a run: only transactions that succeed matter. -/
theorem commits_induction {I : List StorageTransaction → Database → Prop} (hempty : I [] empty)
    (hfail : ∀ ts t, I ts (commits ts) → I (ts ++ [t]) (commits ts))
    (hstep : ∀ ts t db', I ts (commits ts) → t.run (commits ts) = .ok db' → I (ts ++ [t]) db')
    (ts : List StorageTransaction) : I ts (commits ts) := by
  induction ts using List.reverseRecOn with
  | nil => exact hempty
  | append_singleton ts t ih =>
    rw [commits_concat, commit]
    cases hrun : t.run (commits ts) with
    | error e => exact hfail _ _ ih
    | ok db' => exact hstep _ _ _ ih hrun

/-- A transaction of the run that committed. -/
def Succeeded (ts : List StorageTransaction) (t : StorageTransaction) : Prop :=
  ∃ before after db, ts = before ++ t :: after ∧ t.run (commits before) = .ok db

theorem Succeeded.append {ts : List StorageTransaction} {t : StorageTransaction}
    (h : Succeeded ts t) (more : List StorageTransaction) : Succeeded (ts ++ more) t := by
  obtain ⟨before, after, db, rfl, hrun⟩ := h
  exact ⟨before, after ++ more, db, by rw [append_assoc, cons_append], hrun⟩

end Database

/-! ## The transactions of a ledger -/

/-- The blocks of a ledger, with the bodies it lacks from a source. Whatever the source has, the
blocks that come have the heights of the chain. -/
def Ledger.Trimmed.chainStream {l : Ledger} {blocks : List Block} (h : l.Trimmed blocks)
    (source : NodeDatabase) : ChainStream where
  entries := l.blockStream source
  heights _ _ := h.blockStream_height source

namespace Database

/-! ## The digest of a prefix -/

/-- The digest over bodies from height zero on. -/
def historyDigest (bodies : List (List Byte)) : Hash :=
  bodies.zipIdx.foldl (fun digest e => advanceHistoryDigest digest (Fin.ofNat (2 ^ 64) e.2) e.1) 0

omit [Crypto] in
/-- The stored bodies up to a height, if none is missing. -/
def storedPrefix (db : Database) (height : U64) : Option (List (List Byte)) :=
  (List.range (height.val + 1)).mapM fun k => db.blocks.get? (Fin.ofNat (2 ^ 64) k)

variable {blocks blocks' : OrderedMap U64 (List Byte)} {headers : List (Height × Header)}
  {digest result : Hash} {index : Nat}

variable {e : Height × Header} {i : Nat} {snapshot : Option (U64 × List Byte)}
  {snapshots checkpoints : OrderedMap U64 (List Byte)} {validated : Option (List (Height × Header))}

theorem prefixDigest_cons :
    prefixDigest blocks digest index (e :: headers) = .ok result ↔ e.1.val = index ∧ ∃ body block,
      blocks.get? e.1 = some body ∧ decodeBlock body = .ok block ∧ block.height = e.1 ∧
      block.header = e.2 ∧
      prefixDigest blocks (advanceHistoryDigest digest e.1 body) (index + 1) headers =
      .ok result := by
  obtain ⟨height, header⟩ := e
  simp only [prefixDigest, bind_eq_ok, rejectIf_eq_ok, not_not, okOr_eq_ok, orError_eq_ok, not_or,
    exists_const, exists_and_left, and_assoc]

theorem prefixDigest_mono
    (hkeep : ∀ e ∈ headers, ∀ body, blocks.get? e.1 = some body → blocks'.get? e.1 = some body)
    (h : prefixDigest blocks digest index headers = .ok result) :
    prefixDigest blocks' digest index headers = .ok result := by
  induction headers generalizing digest index with
  | nil => exact h
  | cons e headers ih =>
    obtain ⟨hindex, body, block, hbody, hblock, hheight, hheader, hrest⟩ := prefixDigest_cons.mp h
    exact prefixDigest_cons.mpr ⟨hindex, body, block, hkeep e mem_cons_self body hbody,
      hblock, hheight, hheader, ih (fun e he => hkeep e (mem_cons_of_mem _ he)) hrest⟩

theorem prefixDigest_getElem (h : prefixDigest blocks digest index headers = .ok result)
    (he : headers[i]? = some e) :
    e.1.val = index + i ∧ ∃ body block, blocks.get? e.1 = some body ∧ decodeBlock body = .ok block ∧
      block.height = e.1 ∧ block.header = e.2 := by
  induction headers generalizing digest index i with
  | nil => cases he
  | cons head headers ih =>
    obtain ⟨hindex, body, block, hbody, hblock, hheight, hheader, hrest⟩ := prefixDigest_cons.mp h
    cases i with
    | zero =>
      cases he
      exact ⟨hindex, body, block, hbody, hblock, hheight, hheader⟩
    | succ i =>
      obtain ⟨hval, hstored⟩ := ih hrest he
      exact ⟨by omega, hstored⟩

theorem exists_bodies_of_prefixDigest (h : prefixDigest blocks digest index headers = .ok result) :
    ∃ bodies, (List.range' index headers.length).mapM
      (fun k => blocks.get? (Fin.ofNat (2 ^ 64) k)) = some bodies ∧
      result = (bodies.zipIdx index).foldl
        (fun digest e => advanceHistoryDigest digest (Fin.ofNat (2 ^ 64) e.2) e.1) digest := by
  induction headers generalizing digest index with
  | nil =>
    cases h
    exact ⟨[], rfl, rfl⟩
  | cons e headers ih =>
    obtain ⟨hindex, body, block, hbody, -, -, -, hrest⟩ := prefixDigest_cons.mp h
    obtain ⟨bodies, hbodies, hresult⟩ := ih hrest
    have hheight : Fin.ofNat (2 ^ 64) index = e.1 := by
      rw [← hindex]
      exact Fin.ofNat_val_eq_self e.1
    refine ⟨body :: bodies, ?_, ?_⟩
    · rw [length_cons, List.range'_succ, mapM_cons, hheight, hbody, hbodies]
      rfl
    · rw [zipIdx_cons, foldl_cons, hheight]
      exact hresult

/-! ## Validation -/

variable {db db' : Database} {identity : NodeIdentity} {height : U64} {bytes : List Byte}
  {record : SnapshotValidationCheckpoint}

theorem validationCheckpoint_ok
    (h : db.validationCheckpoint identity height bytes headers = .ok record) :
    headers.length = height.val + 1 ∧
      prefixDigest db.blocks 0 0 headers = .ok record.historyDigest ∧
      record.height = height ∧ record.snapshotHash = hashBytes bytes ∧
      ∃ last, headers.getLast? = some last ∧ record.tipHash = last.2.hash := by
  simp only [validationCheckpoint, bind_eq_ok, rejectIf_eq_ok, not_not, Option.map_eq_some_iff,
    checkedAdd_eq_some, okOr_eq_ok, return_eq_ok] at h
  obtain ⟨_, ⟨next, hnext, hlength⟩, digest, hdigest, last, hlast, rfl⟩ := h
  exact ⟨hlength.symm.trans hnext, hdigest, rfl, rfl, last, hlast, rfl⟩

theorem validationCheckpoint_mono
    (hkeep : ∀ k : U64, k ≤ height → ∀ body, db.blocks.get? k = some body →
      db'.blocks.get? k = some body)
    (h : db.validationCheckpoint identity height bytes headers = .ok record) :
    db'.validationCheckpoint identity height bytes headers = .ok record := by
  obtain ⟨hlength, hdigest, -⟩ := validationCheckpoint_ok h
  have hbelow : ∀ e ∈ headers, ∀ body, db.blocks.get? e.1 = some body →
      db'.blocks.get? e.1 = some body := by
    intro e he
    obtain ⟨i, hi⟩ := mem_iff_getElem?.mp he
    have hval := (prefixDigest_getElem hdigest hi).1
    have hlt := (List.getElem?_eq_some_iff.mp hi).1
    exact hkeep e.1 (Fin.le_def.mpr (by omega))
  have hdigest' := prefixDigest_mono hbelow hdigest
  rw [validationCheckpoint, hdigest] at h
  rw [validationCheckpoint, hdigest']
  exact h

theorem validationCheckpoint_prefix
    (h : db.validationCheckpoint identity height bytes headers = .ok record) :
    ∃ bodies tip block, db.storedPrefix height = some bodies ∧
      record.historyDigest = historyDigest bodies ∧
      db.blocks.get? height = some tip ∧ decodeBlock tip = .ok block ∧
      record.tipHash = block.hash := by
  obtain ⟨hlength, hdigest, -, -, last, hlast, htip⟩ := validationCheckpoint_ok h
  obtain ⟨bodies, hbodies, hresult⟩ := exists_bodies_of_prefixDigest hdigest
  rw [getLast?_eq_getElem?] at hlast
  obtain ⟨hval, body, block, hbody, hblock, -, hheader⟩ := prefixDigest_getElem hdigest hlast
  have hheight : last.1 = height := Fin.ext (by omega)
  refine ⟨bodies, body, block, ?_, hresult, hheight ▸ hbody, hblock, ?_⟩
  · rw [storedPrefix, range_eq_range', ← hlength]
    exact hbodies
  · rw [htip, ← hheader]
    rfl

/-! ## Transactions keep checkpoints true -/

/-- Every checkpoint was stored by a transaction of the run that committed, and it is the record
that validation would write for the bodies stored now. -/
def Vouched (ts : List StorageTransaction) (db : Database) : Prop :=
  ∀ height stored, db.checkpoints.get? height = some stored → ∃ identity bytes headers record,
    Succeeded ts (.putSnapshot identity height bytes (some headers)) ∧
    db.validationCheckpoint identity height bytes headers = .ok record ∧ stored = record.encode

variable {ts : List StorageTransaction} {t : StorageTransaction}

theorem Vouched.kept (h : Vouched ts db)
    (hcheckpoints : ∀ height stored, db'.checkpoints.get? height = some stored →
      db.checkpoints.get? height = some stored ∧
      ∀ k : U64, k ≤ height → ∀ body, db.blocks.get? k = some body →
      db'.blocks.get? k = some body) :
    Vouched (ts ++ [t]) db' := by
  intro height stored hstored
  obtain ⟨hbefore, hkeep⟩ := hcheckpoints height stored hstored
  obtain ⟨identity, bytes, headers, record, hput, hrecord, rfl⟩ := h height stored hbefore
  exact ⟨identity, bytes, headers, record, hput.append _,
    validationCheckpoint_mono hkeep hrecord, rfl⟩

variable {block : StoredCanonicalBlock} {mempool : List (List Byte)}

theorem appendBlock_ok (h : db.appendBlockAndReplaceMempool block mempool = .ok db') :
    db.blocks.get? block.height = none ∧ db'.blocks = db.blocks.insert block.height block.bytes ∧
      db'.snapshots = db.snapshots ∧ db'.checkpoints = db.checkpoints := by
  simp only [appendBlockAndReplaceMempool, bind_eq_ok, rejectIf_eq_ok, Bool.not_eq_true,
    contains_eq_false_iff, okOr_eq_ok, return_eq_ok] at h
  obtain ⟨_, hnone, _, _, _, _, _, _, rfl⟩ := h
  exact ⟨hnone, rfl, rfl, rfl⟩

theorem Vouched.append (h : Vouched ts db)
    (hrun : db.appendBlockAndReplaceMempool block mempool = .ok db') : Vouched (ts ++ [t]) db' := by
  obtain ⟨hnone, hblocks, -, hcheckpoints⟩ := appendBlock_ok hrun
  refine h.kept fun height stored hstored => ⟨hcheckpoints ▸ hstored, ?_⟩
  intro k _ body hbody
  rw [hblocks, get?_insert, if_neg]
  · exact hbody
  · rintro rfl
    rw [hnone] at hbody
    cases hbody

omit [Crypto] in
/-- The loop stops at the first body that differs. All bodies before it are stored already. -/
theorem commonHeight_ok {common result : Option U64} {rest : BlockStream} {start : Nat}
    (hheights : ∀ (i : Nat) (block : StoredCanonicalBlock), rest[i]? = some (.ok block) →
      block.height.val = start + i)
    (h : commonHeight blocks common rest = .ok result) :
    ∃ n, (∀ i, i < n → ∃ block, rest[i]? = some (.ok block) ∧
      blocks.get? block.height = some block.bytes) ∧
      ∀ last, result = some last → common = some last ∨ last.val < start + n := by
  induction rest generalizing common start with
  | nil =>
    cases h
    exact ⟨0, fun i hi => absurd hi (Nat.not_lt_zero i), fun last hlast => .inl hlast⟩
  | cons entry rest ih =>
    simp only [commonHeight, bind_eq_ok] at h
    obtain ⟨block, rfl, h⟩ := h
    split at h
    · rename_i hmatch
      have hrest : ∀ (i : Nat) (block : StoredCanonicalBlock), rest[i]? = some (.ok block) →
          block.height.val = start + 1 + i := by
        intro i block hi
        rw [hheights (i + 1) block hi]
        omega
      obtain ⟨n, hn, hlast⟩ := ih hrest h
      refine ⟨n + 1, ?_, ?_⟩
      · intro i hi
        cases i with
        | zero => exact ⟨block, rfl, hmatch⟩
        | succ i => exact hn i (by omega)
      · intro last hresult
        right
        rcases hlast last hresult with heq | hlt
        · have hval := hheights 0 block rfl
          rw [Option.some.injEq] at heq
          rw [← heq]
          omega
        · omega
    · cases h
      exact ⟨0, fun i hi => absurd hi (Nat.not_lt_zero i), fun last hlast => .inl hlast⟩

theorem replacement_get? {chain : ChainContext} (stream : ChainStream) {r : Replacement}
    (h : stream.entries.foldlM (Replacement.insert chain) Replacement.start = .ok r)
    (hi : stream.entries[i]? = some (.ok block)) :
    r.blocks.get? block.height = some block.bytes := by
  refine foldlM_along (fun done (r : Replacement) => ∀ (i : Nat) (block : StoredCanonicalBlock),
    done[i]? = some (.ok block) → r.blocks.get? block.height = some block.bytes) ?_ ?_ h i block hi
  · intro done entry rest s s' hsplit hs hinsert i block hi
    simp only [Replacement.insert, bind_eq_ok, return_eq_ok] at hinsert
    obtain ⟨last, rfl, indexes, _, rfl⟩ := hinsert
    have hlast := stream.heights done.length last (by rw [hsplit]; simp)
    have hval := stream.heights i block (by
      rw [hsplit, append_cons, getElem?_append_left (List.getElem?_eq_some_iff.mp hi).1]
      exact hi)
    rw [get?_insert]
    rcases Nat.lt_or_ge i done.length with hlt | hge
    · rw [if_neg (by rintro heq; rw [heq] at hval; omega)]
      rw [getElem?_append_left hlt] at hi
      exact hs i block hi
    · rw [getElem?_append_right hge, getElem?_singleton] at hi
      split_ifs at hi
      cases hi
      rw [if_pos rfl]
  · intro i block hi
    cases hi

omit [Crypto] in
theorem publishRecovery_ok {tipHeight : U64} {snapshots' checkpoints' : OrderedMap U64 (List Byte)}
    (h : publishRecovery tipHeight snapshot snapshots checkpoints =
      .ok (snapshots', checkpoints')) :
    (∀ height stored, snapshots'.get? height = some stored →
      snapshots.get? height = some stored ∨ snapshot.map Prod.snd = some stored) ∧
    ∀ height stored, checkpoints'.get? height = some stored →
      checkpoints.get? height = some stored := by
  cases snapshot with
  | none =>
    cases h
    exact ⟨fun _ _ => .inl, fun _ _ => id⟩
  | some s =>
    simp only [publishRecovery, bind_eq_ok, return_eq_ok, Prod.mk.injEq] at h
    obtain ⟨_, _, rfl, rfl⟩ := h
    refine ⟨fun height stored hstored => ?_, fun height stored hstored => ?_⟩
    · rw [get?_insert] at hstored
      split_ifs at hstored
      · exact .inr hstored
      · exact .inl hstored
    · rw [get?_erase] at hstored
      split_ifs at hstored
      exact hstored

theorem replaceBlocks_ok {stream : ChainStream}
    (h : db.replaceBlocksMempoolAndSnapshotStream stream.entries mempool snapshot = .ok db') :
    (∀ height stored, db'.snapshots.get? height = some stored →
      db.snapshots.get? height = some stored ∨ snapshot.map Prod.snd = some stored) ∧
    ∀ height stored, db'.checkpoints.get? height = some stored →
      db.checkpoints.get? height = some stored ∧
      ∀ k : U64, k ≤ height → ∀ body, db.blocks.get? k = some body →
      db'.blocks.get? k = some body := by
  simp only [replaceBlocksMempoolAndSnapshotStream, bind_eq_ok, okOr_eq_ok, Prod.exists,
    return_eq_ok] at h
  obtain ⟨_, _, first, _, chain, _, common, hcommon, r, hr, tipHeight, tipHash, _, snapshots,
    checkpoints, hpublish, rfl⟩ := h
  obtain ⟨hsnapshots, hcheckpoints⟩ := publishRecovery_ok hpublish
  refine ⟨fun height stored hstored => ?_, fun height stored hstored => ?_⟩
  · refine (hsnapshots height stored hstored).imp_left fun hkept => ?_
    rw [retainCommon, get?_retain] at hkept
    exact (Option.filter_eq_some_iff.mp hkept).1
  · have hkept := hcheckpoints height stored hstored
    rw [retainCommon, get?_retain, Option.filter_eq_some_iff, Option.any_eq_true] at hkept
    obtain ⟨hbefore, last, rfl, hle⟩ := hkept
    refine ⟨hbefore, fun k hk body hbody => ?_⟩
    have hheights : ∀ (i : Nat) (block : StoredCanonicalBlock),
        stream.entries[i]? = some (.ok block) →
        block.height.val = 0 + i :=
          fun i block hi => by rw [stream.heights i block hi, Nat.zero_add]
    obtain ⟨n, hn, hlast⟩ := commonHeight_ok hheights hcommon
    have hlt : last.val < 0 + n := (hlast last rfl).resolve_left (by simp)
    have hbelow := Fin.le_def.mp (hk.trans (of_decide_eq_true hle))
    obtain ⟨block, hentry, hsame⟩ := hn k.val (by omega)
    have hheight : block.height = k := Fin.ext (stream.heights k.val block hentry)
    have hreplaced := replacement_get? stream hr hentry
    rw [hheight] at hsame hreplaced
    rw [hsame] at hbody
    rw [← hbody]
    exact hreplaced

omit [Crypto] in
theorem get?_of_erase {table : OrderedMap U64 (List Byte)} {key key' : U64} {stored : List Byte}
    (h : (table.erase key).get? key' = some stored) : table.get? key' = some stored := by
  rw [get?_erase] at h
  split_ifs at h
  exact h

omit [Crypto] in
/-- Eviction only takes away, from both tables, and stops with at most two snapshots. -/
theorem evictOldest_ok {n : Nat} (hn : snapshots.length ≤ n) :
    (∀ height stored, (evictOldest n snapshots checkpoints).1.get? height = some stored →
      snapshots.get? height = some stored) ∧
    (∀ height stored, (evictOldest n snapshots checkpoints).2.get? height = some stored →
      checkpoints.get? height = some stored) ∧
    (evictOldest n snapshots checkpoints).1.length ≤ 2 := by
  induction n generalizing snapshots checkpoints with
  | zero => exact ⟨fun _ _ => id, fun _ _ => id, by change snapshots.length ≤ 2; omega⟩
  | succ n ih =>
    rw [evictOldest]
    split
    · rename_i hlong
      cases hentries : snapshots.entries with
      | nil =>
        rw [OrderedMap.length, hentries] at hlong
        cases hlong
      | cons e rest =>
        have hhead : snapshots.keys.head? = some e.1 := by rw [OrderedMap.keys, hentries]; rfl
        have hget : snapshots.get? e.1 = some e.2 :=
          get?_eq_some_iff.mpr (by rw [hentries]; exact mem_cons_self)
        have hcount := sumBy_erase (fun _ _ => 1) snapshots e.1
        rw [hget, optionSum_some, ← length_eq_sumBy, ← length_eq_sumBy] at hcount
        rw [hhead]
        obtain ⟨hsnapshots, hcheckpoints, hlength⟩ :=
          @ih (snapshots.erase e.1) (checkpoints.erase e.1) (by omega)
        exact ⟨fun height stored h => get?_of_erase (hsnapshots height stored h),
          fun height stored h => get?_of_erase (hcheckpoints height stored h), hlength⟩
    · exact ⟨fun _ _ => id, fun _ _ => id, by change snapshots.length ≤ 2; omega⟩

theorem putSnapshotInner_ok (h : db.putSnapshotInner identity height bytes validated = .ok db') :
    db'.blocks = db.blocks ∧ db'.snapshots.length ≤ 2 ∧
    (∀ k stored, db'.snapshots.get? k = some stored → db.snapshots.get? k = some stored ∨
      bytes = stored) ∧
    ∀ k stored, db'.checkpoints.get? k = some stored → db.checkpoints.get? k = some stored ∨
      ∃ headers record, k = height ∧ validated = some headers ∧
        db.validationCheckpoint identity height bytes headers = .ok record ∧
        stored = record.encode := by
  simp only [putSnapshotInner, bind_eq_ok, return_eq_ok] at h
  obtain ⟨checkpoint, hcheckpoint, rfl⟩ := h
  obtain ⟨hsnapshots, hcheckpoints, hlength⟩ := @evictOldest_ok (db.snapshots.insert height bytes)
    (db.checkpoints.put height (checkpoint.map SnapshotValidationCheckpoint.encode)) _ le_rfl
  refine ⟨rfl, hlength, fun k stored hk => ?_, fun k stored hk => ?_⟩
  · have hstored := hsnapshots k stored hk
    rw [get?_insert] at hstored
    split_ifs at hstored
    · exact .inr (Option.some.inj hstored)
    · exact .inl hstored
  · have hstored := hcheckpoints k stored hk
    rw [get?_put] at hstored
    split_ifs at hstored with hkey
    · right
      cases validated with
      | none =>
        cases hcheckpoint
        cases hstored
      | some headers =>
        obtain ⟨record, hrecord, rfl⟩ := map_eq_ok.mp hcheckpoint
        exact ⟨headers, record, hkey, rfl, hrecord, (Option.some.inj hstored).symm⟩
    · exact .inl hstored

theorem Vouched.putSnapshot (h : Vouched ts (commits ts))
    (hrun : (commits ts).putSnapshotInner identity height bytes validated = .ok db') :
    Vouched (ts ++ [.putSnapshot identity height bytes validated]) db' := by
  obtain ⟨hblocks, -, -, hcheckpoints⟩ := putSnapshotInner_ok hrun
  have hkeep : ∀ k' k : U64, k ≤ k' → ∀ body, (commits ts).blocks.get? k = some body →
      db'.blocks.get? k = some body := by
    intro _ k _ body hbody
    rw [hblocks]
    exact hbody
  intro k stored hk
  rcases hcheckpoints k stored hk with hbefore | ⟨headers, record, rfl, rfl, hrecord, hstored⟩
  · obtain ⟨identity', bytes', headers, record, hput, hrecord, hstored⟩ := h k stored hbefore
    exact ⟨identity', bytes', headers, record, hput.append _,
      validationCheckpoint_mono (hkeep k) hrecord, hstored⟩
  · exact ⟨identity, bytes, headers, record, ⟨ts, [], db', rfl, hrun⟩,
      validationCheckpoint_mono (hkeep k) hrecord, hstored⟩

/-! ## Runs -/

theorem vouched_commits (ts : List StorageTransaction) : Vouched ts (commits ts) := by
  refine commits_induction ?_ ?_ ?_ ts
  · intro height stored hstored
    cases hstored
  · intro ts t h
    exact h.kept fun height stored hstored => ⟨hstored, fun k _ body => id⟩
  · intro ts t db' h hrun
    cases t with
    | append block mempool => exact h.append hrun
    | replace stream mempool snapshot => exact h.kept (replaceBlocks_ok hrun).2
    | putSnapshot identity height bytes headers => exact h.putSnapshot hrun

theorem snapshots_commits (ts : List StorageTransaction) :
    ∀ height stored, (commits ts).snapshots.get? height = some stored →
      stored ∈ snapshotsOf ts := by
  refine commits_induction (I := fun ts db => ∀ height stored,
    db.snapshots.get? height = some stored →
    stored ∈ snapshotsOf ts) ?_ ?_ ?_ ts
  · intro height stored hstored
    cases hstored
  · intro ts t h height stored hstored
    obtain ⟨t', ht', hbytes⟩ := h height stored hstored
    exact ⟨t', mem_append_left _ ht', hbytes⟩
  · intro ts t db' h hrun height stored hstored
    have hnew : (commits ts).snapshots.get? height = some stored ∨
        t.snapshotBytes = some stored := by
      cases t with
      | append block mempool =>
        rw [(appendBlock_ok hrun).2.2.1] at hstored
        exact .inl hstored
      | replace stream mempool snapshot => exact (replaceBlocks_ok hrun).1 height stored hstored
      | putSnapshot identity height' bytes headers =>
        exact ((putSnapshotInner_ok hrun).2.2.1 height stored hstored).imp_right (congrArg some)
    rcases hnew with hbefore | hnew
    · obtain ⟨t', ht', hbytes⟩ := h height stored hbefore
      exact ⟨t', mem_append_left _ ht', hbytes⟩
    · exact ⟨t, mem_append_right _ (mem_singleton_self t), hnew⟩

end Database

end

end Xparq
