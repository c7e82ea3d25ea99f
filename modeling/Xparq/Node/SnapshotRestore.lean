import Xparq.Node.SnapshotCheckpoints

/-!
# Trusted restores

A node that starts again restores its newest snapshot with a checkpoint on the stored bodies,
without checking their proofs of work. `commits_trusted` says that the snapshot was stored for
exactly the headers of these bodies, also when the snapshot, the checkpoint and the bodies were read
at different times: the checkpoint vouches for the bodies, and its hash for the bytes of the
snapshot.
-/

namespace Xparq

open Machine Outcome OrderedMap List Database

section
variable [Crypto]

/-! ## Restored chains -/

/-- The headers and the tip are those of a list of blocks; bodies may be gone. -/
structure Chain.Carries (c : Chain) (blocks : List Block) : Prop where
  heights : ∀ (i : Nat) (b : Block), blocks[i]? = some b → b.height.val = i
  entries : c.headers.entries = blocks.map fun b => (b.height, b.header)
  tipHeight : c.tipHeight = blocks.getLast?.map Block.height
  tipHash : c.tipHash = blocks.getLast?.map Block.hash

namespace Chain

variable {c : Chain} {blocks : List Block} {b : Block}

theorem carries_empty : Chain.empty.Carries [] := ⟨nofun, rfl, rfl, rfl⟩

theorem Carries.height_next (h : c.Carries blocks) (hnext : c.validateNextBlock b = .ok ()) :
    b.height.val = blocks.length := by
  have hfree := header_eq_none_of_next hnext
  rcases eq_nil_or_concat' blocks with rfl | ⟨front, last, rfl⟩
  · simp only [validateNextBlock, bind_eq_ok, h.tipHeight, h.tipHash, getLast?_nil, Option.map_none,
      rejectIf_eq_ok, not_or, not_not] at hnext
    obtain ⟨_, _, hheight, _⟩ := hnext
    rw [hheight]
    rfl
  · have hlast : (front ++ [last]).getLast? = some last := getLast?_concat
    simp only [validateNextBlock, bind_eq_ok, h.tipHeight, h.tipHash, hlast, Option.map_some,
      rejectIf_eq_ok, not_not] at hnext
    obtain ⟨_, _, _, hheight, _⟩ := hnext
    have hval := h.heights front.length last (by simp)
    have htaken : c.headers.get? last.height = some last.header := by
      rw [get?_eq_some_iff, h.entries]
      exact mem_map_of_mem (mem_append_right _ (mem_singleton_self last))
    rw [length_append, length_singleton]
    rw [Height.val_of_eq_next hheight fun hlast => ?_, hval]
    -- at the last height the next one is occupied
    rw [hlast, htaken] at hfree
    cases hfree

theorem Carries.extend (h : c.Carries blocks) (hnext : c.validateNextBlock b = .ok ()) :
    (c.extend b).Carries (blocks ++ [b]) := by
  have hheight := h.height_next hnext
  refine ⟨?_, ?_, by rw [getLast?_concat]; rfl, by rw [getLast?_concat]; rfl⟩
  · intro i b' hi
    rcases Nat.lt_or_ge i blocks.length with hlt | hge
    · rw [getElem?_append_left hlt] at hi
      exact h.heights i b' hi
    · rw [getElem?_append_right hge, getElem?_singleton] at hi
      split_ifs at hi with hzero
      cases hi
      omega
  · change (c.headers.insert b.height b.header).entries = _
    rw [entries_insert_of_lt, h.entries, map_append]
    · rfl
    · intro e he
      rw [h.entries] at he
      obtain ⟨b', hb', rfl⟩ := mem_map.mp he
      obtain ⟨i, hi⟩ := mem_iff_getElem?.mp hb'
      have hval := h.heights i b' hi
      have hlt := (List.getElem?_eq_some_iff.mp hi).1
      exact Fin.lt_def.mpr (by change b'.height.val < b.height.val; omega)

theorem Carries.retainRecentBodies (h : c.Carries blocks) {c' : Chain} {maxBytes maxBlocks : Nat}
    (hretain : c.retainRecentBodies maxBytes maxBlocks = .ok c') : c'.Carries blocks := by
  simp only [Chain.retainRecentBodies, bind_eq_ok, Prod.exists, return_eq_ok] at hretain
  obtain ⟨_, _, _, _, rfl⟩ := hretain
  exact ⟨h.heights, h.entries, h.tipHeight, h.tipHash⟩

end Chain

/-- The stored body at the height of the block is its body. -/
def StoredBody (db : Database) (b : Block) : Prop :=
  ∃ body, db.blocks.get? b.height = some body ∧ decodeBlock body = .ok b

omit [Crypto] in
theorem CanonicalBodyReader.nextBody_ok {r r' : CanonicalBodyReader} {bytes : List Byte}
    (h : r.nextBody = (some (.ok bytes), r')) :
    r.last ≠ none ∧ r.database.blocks.get? r.next = some bytes ∧ r'.database = r.database ∧
      (r'.last ≠ none → r'.next.val = r.next.val + 1) := by
  unfold nextBody at h
  cases hlast : r.last with
  | none =>
    rw [hlast] at h
    cases h
  | some last =>
    simp only [hlast] at h
    split at h
    · cases h
    · rename_i hle
      cases hbody : streamedBody r.database r.next with
      | error e =>
        rw [hbody] at h
        cases h
      | ok body =>
        rw [hbody] at h
        simp only [Prod.mk.injEq, Option.some.injEq, Except.ok.injEq] at h
        obtain ⟨rfl, rfl⟩ := h
        simp only [streamedBody, bind_eq_ok, okOr_eq_ok, return_eq_ok] at hbody
        obtain ⟨_, hget, _, _, rfl⟩ := hbody
        refine ⟨Option.some_ne_none last, hget, ?_, ?_⟩
        · split <;> rfl
        · split
          · intro hnone
            exact absurd rfl hnone
          · rename_i hne
            intro _
            have hlt : r.next.val < last.val := by
              have hle := Fin.le_def.mp (not_lt.mp hle)
              have hne : r.next.val ≠ last.val := fun heq => hne (Fin.ext heq)
              omega
            exact Fin.val_add_one_of_lt' (by have := last.isLt; omega)

theorem BodyStream.pull_some {trusted : Bool} {storedHeight : U64} {s s' : BodyStream}
    {block : Block} (h : s.pull trusted storedHeight = (some block, s')) :
    s.reader.last ≠ none ∧ s'.reader.database = s.reader.database ∧
      (s'.reader.last ≠ none → s'.reader.next.val = s.reader.next.val + 1) ∧
      ∃ bytes, s.reader.database.blocks.get? s.reader.next = some bytes ∧
      decodeBlock bytes = .ok block := by
  unfold pull at h
  split at h
  · cases h
  · rcases hnext : s.reader.nextBody with ⟨entry, reader⟩
    simp only [hnext] at h
    split at h
    · cases h
    · rename_i bytes hentry
      split at h
      · cases h
      · rename_i b hblock
        cases h
        simp only [bind_eq_ok, okOr_eq_ok, id_eq] at hentry
        obtain ⟨_, rfl, rfl⟩ := hentry
        obtain ⟨hlast, hget, hdatabase, hadvance⟩ := CanonicalBodyReader.nextBody_ok hnext
        exact ⟨hlast, hdatabase, hadvance, bytes, hget, hblock⟩

namespace Ledger

variable {snapshot : LedgerSnapshot} {journalStart : Height} {cache : BodyCache} {verifyPow : Bool}
  {r r' : Restoring} {b : Block} {db : Database}

theorem restoreBlockMeasured_ok
    (h : restoreBlockMeasured snapshot journalStart cache verifyPow r b = .ok r') :
    r.chain.validateNextBlock b = .ok () ∧
      (r.chain.extend b).retainRecentBodies cache.maxBytes cache.maxBlocks = .ok r'.chain := by
  simp only [restoreBlockMeasured, Restoring.push, bind_eq_ok, mapError_eq_ok,
    Chain.insertBlock_eq_ok, return_eq_ok] at h
  obtain ⟨_, _, _, ⟨hnext, rfl⟩, chain, hretain, _, _, rfl⟩ := h
  exact ⟨hnext, hretain⟩

/-- Where the replay of the history stands: the chain carries the blocks of the bodies behind the
reader. -/
structure Replayed (db : Database) (blocks : List Block) (r : Restoring) (s : BodyStream) :
    Prop where
  carries : r.chain.Carries blocks
  stored : ∀ b ∈ blocks, StoredBody db b
  database : s.reader.database = db
  position : s.reader.last ≠ none → s.reader.next.val = blocks.length

variable {s' s : BodyStream} {trusted : Bool} {blocks : List Block}

theorem Replayed.step {storedHeight : U64}
    (h : Replayed db blocks r s) (hpull : s.pull trusted storedHeight = (some b, s'))
    (hstep : restoreBlockMeasured snapshot journalStart cache verifyPow r b = .ok r') :
    Replayed db (blocks ++ [b]) r' s' := by
  obtain ⟨hlast, hdatabase, hadvance, bytes, hget, hblock⟩ := BodyStream.pull_some hpull
  obtain ⟨hnext, hretain⟩ := restoreBlockMeasured_ok hstep
  have hposition := h.position hlast
  have hheight : b.height = s.reader.next :=
    Fin.ext (by rw [h.carries.height_next hnext, hposition])
  refine ⟨(h.carries.extend hnext).retainRecentBodies hretain, ?_, hdatabase.trans h.database, ?_⟩
  · intro b' hb'
    rcases mem_append.mp hb' with hold | hnew
    · exact h.stored b' hold
    · rw [mem_singleton.mp hnew]
      rw [h.database, ← hheight] at hget
      exact ⟨bytes, hget, hblock⟩
  · intro hmore
    rw [hadvance hmore, hposition, length_append, length_singleton]

/-- The restored chain consists of bodies of the generation that the loop reads from. -/
theorem Replayed.stream {storedHeight : U64} {n : Nat} (h : Replayed db blocks r s)
    (hrun : restoreStream (restoreBlockMeasured snapshot journalStart cache verifyPow) trusted
      storedHeight n r s =
      (.ok r', s')) : ∃ blocks', r'.chain.Carries blocks' ∧ ∀ b ∈ blocks', StoredBody db b := by
  induction n generalizing blocks r s with
  | zero =>
    cases hrun
    exact ⟨blocks, h.carries, h.stored⟩
  | succ n ih =>
    rw [restoreStream] at hrun
    rcases hpull : s.pull trusted storedHeight with ⟨_ | block, next⟩
    · rw [hpull] at hrun
      cases hrun
      exact ⟨blocks, h.carries, h.stored⟩
    · simp only [hpull] at hrun
      cases hstep : restoreBlockMeasured snapshot journalStart cache verifyPow r block with
      | error e =>
        rw [hstep] at hrun
        cases hrun
      | ok r₁ =>
        rw [hstep] at hrun
        exact ih (h.step hpull hstep) hrun

theorem restoreSnapshotBlocks_ok {storedHeight : U64} {digest : Hash} {error : Option NodeError}
    {l : Ledger} {next : Nat}
    (h : restoreSnapshotBlocks snapshot cache trusted storedHeight ⟨.new db, digest, next, error⟩ =
      (.ok l, s')) :
    l.snapshot = snapshot ∧ ∃ blocks, l.chain.Carries blocks ∧ ∀ b ∈ blocks, StoredBody db b := by
  unfold restoreSnapshotBlocks at h
  split at h
  · cases h
  · rename_i start hstart
    obtain ⟨hfinish, -⟩ := Prod.mk.inj h
    rw [bind_eq_ok] at hfinish
    obtain ⟨r, hr, hfinish⟩ := hfinish
    have hreplayed : Replayed db [] ⟨none, none, .empty, 0⟩ ⟨.new db, digest, next, error⟩ :=
      ⟨Chain.carries_empty, nofun, rfl, fun _ => rfl⟩
    have hresult : (restoreStream (restoreBlockMeasured snapshot start cache (!trusted))
        trusted storedHeight
        (storedHeight.val + 1) ⟨none, none, .empty, 0⟩ ⟨.new db, digest, next, error⟩).1 =
          .ok r := hr
    obtain ⟨blocks, hcarries, hstored⟩ := hreplayed.stream (Prod.ext hresult rfl)
    simp only [finishRestore, bind_eq_ok, okOr_eq_ok, Prod.exists, return_eq_ok] at hfinish
    obtain ⟨_, _, _, _, _, _, _, _, _, _, _, _, _, _, _, rfl⟩ := hfinish
    exact ⟨rfl, blocks, hcarries, hstored⟩

end Ledger

/-! ## Trusted restores -/

variable {identity : NodeIdentity} {cache : BodyCache} {db : Database} {storedHeight : U64}
  {bytes : List Byte}

variable {snapshot : SnapshotPayload} {l : Ledger} {next : Nat}

theorem matchingCheckpoint_some {record : SnapshotValidationCheckpoint}
    (h : matchingCheckpoint (.new db) storedHeight snapshot bytes = some record) :
    ∃ stored, db.checkpoints.get? storedHeight = some stored ∧
      SnapshotValidationCheckpoint.decode stored = some record ∧
      record.snapshotHash = hashBytes bytes := by
  rw [matchingCheckpoint, Option.filter_eq_some_iff] at h
  obtain ⟨hread, hmatch⟩ := h
  simp only [Bool.and_eq_true, decide_eq_true_eq] at hmatch
  unfold CanonicalBodyReader.snapshotCheckpoint at hread
  cases hget : (CanonicalBodyReader.new db).database.checkpoints.get? storedHeight with
  | none =>
    rw [hget] at hread
    cases hread
  | some stored =>
    rw [hget] at hread
    cases hdecode : SnapshotValidationCheckpoint.decode stored with
    | none =>
      simp only [hdecode] at hread
      cases hread
    | some record' =>
      simp only [hdecode] at hread
      cases hread
      exact ⟨stored, hget, hdecode, hmatch.2⟩

theorem openSnapshot_some (h : openSnapshot identity storedHeight bytes = .ok (some snapshot)) :
    SnapshotPayload.decode (bytes.take (bytes.length - checksumSize)) = some snapshot ∧
      snapshot.height = storedHeight := by
  simp only [openSnapshot, bind_eq_ok] at h
  obtain ⟨_, _, _, _, h⟩ := h
  split at h
  · cases h
  · rename_i snapshot' hdecode
    simp only [bind_eq_ok, rejectIf_eq_ok, not_or, not_not, return_eq_ok, Option.some.injEq] at h
    obtain ⟨_, ⟨_, _, _, _, hheight⟩, rfl⟩ := h
    exact ⟨hdecode, hheight⟩

theorem restoreAttempt_some
    (h : restoreAttempt identity cache true db storedHeight bytes = .ok (some (l, next))) :
    ∃ snapshot record blocks,
      SnapshotPayload.decode (bytes.take (bytes.length - checksumSize)) = some snapshot ∧
      matchingCheckpoint (.new db) storedHeight snapshot bytes = some record ∧
      l.snapshot = snapshot.ledger ∧
      l.chain.Carries blocks ∧ (∀ b ∈ blocks, StoredBody db b) ∧
      l.chain.tipHeight = some storedHeight := by
  simp only [restoreAttempt, bind_eq_ok] at h
  obtain ⟨opened, hopened, h⟩ := h
  cases opened with
  | none => cases h
  | some snapshot =>
    obtain ⟨hdecode, hheight⟩ := openSnapshot_some hopened
    cases hcheckpoint : matchingCheckpoint (.new db) storedHeight snapshot bytes with
    | none =>
      simp only [hcheckpoint] at h
      cases h
    | some record =>
      rcases hrun : Ledger.restoreSnapshotBlocks snapshot.ledger cache true storedHeight ⟨.new db,
        0, 0, none⟩ with
        ⟨restored, stream⟩
      simp only [hcheckpoint, if_true, reduceCtorEq, and_false, if_false, Option.isSome_some,
        hrun] at h
      split at h
      · cases h
      · simp only [bind_eq_ok, orError_eq_ok, rejectIf_eq_ok, not_or, not_not, return_eq_ok,
          Option.some.injEq, Prod.mk.injEq] at h
        obtain ⟨_, _, l₀, rfl, _, ⟨htip, _⟩, rfl, _⟩ := h
        obtain ⟨hsnapshot, blocks, hcarries, hstored⟩ := Ledger.restoreSnapshotBlocks_ok hrun
        exact ⟨snapshot, record, blocks, hdecode, hcheckpoint, hsnapshot, hcarries, hstored,
          htip.trans (by rw [hheight])⟩

/-- What is loaded was restored by one attempt; those before it only left errors. -/
theorem loadStreamedMode_some {allowCheckpoint : Bool} {maximumHeight : U64}
    {generation : Nat → Database} {index : Nat} {errors : List NodeError}
    {snapshots : List (U64 × List Byte)} {restored : Ledger × Nat}
    (h : loadStreamedMode identity cache allowCheckpoint maximumHeight generation index
      errors snapshots =
      .ok (some restored)) :
    ∃ e ∈ snapshots, ∃ i, restoreAttempt identity cache allowCheckpoint (generation i) e.1 e.2 =
      .ok (some restored) := by
  induction snapshots generalizing index errors with
  | nil =>
    rw [loadStreamedMode] at h
    split_ifs at h
    cases h
  | cons e snapshots ih =>
    have hrest : ∀ {index : Nat} {errors : List NodeError},
        loadStreamedMode identity cache allowCheckpoint maximumHeight generation index
          errors snapshots =
          .ok (some restored) → ∃ e' ∈ e :: snapshots, ∃ i,
          restoreAttempt identity cache allowCheckpoint (generation i) e'.1 e'.2 =
            .ok (some restored) := by
      intro index errors h
      obtain ⟨e', he', hattempt⟩ := ih h
      exact ⟨e', mem_cons_of_mem _ he', hattempt⟩
    rw [loadStreamedMode] at h
    split at h
    · exact hrest h
    · split at h
      · rename_i hattempt
        cases h
        exact ⟨e, mem_cons_self, index, hattempt⟩
      · exact hrest h
      · exact hrest h

/-- Two descriptions of the same stored bodies: the headers a checkpoint was written for, and the
blocks of a restored chain. -/
theorem headers_eq_of_stored {headers : List (Height × Header)} {digest : Hash}
    {blocks : List Block} (hdigest : prefixDigest db.blocks 0 0 headers = .ok digest)
    (hheights : ∀ (i : Nat) (b : Block), blocks[i]? = some b → b.height.val = i)
    (hstored : ∀ b ∈ blocks, StoredBody db b) (hlength : headers.length = blocks.length) :
    headers = blocks.map fun b => (b.height, b.header) := by
  apply ext_getElem?
  intro i
  rw [getElem?_map]
  cases hb : blocks[i]? with
  | none =>
    rw [List.getElem?_eq_none_iff] at hb
    rw [Option.map_none, List.getElem?_eq_none_iff, hlength]
    exact hb
  | some b =>
    have hlt : i < headers.length := by rw [hlength]; exact (List.getElem?_eq_some_iff.mp hb).1
    obtain ⟨hval, body, block, hbody, hblock, hheight, hheader⟩ :=
      prefixDigest_getElem hdigest (getElem?_eq_getElem hlt)
    obtain ⟨body', hbody', hblock'⟩ := hstored b (mem_of_getElem? hb)
    have hsame : headers[i].1 = b.height := Fin.ext (by rw [hval, hheights i b hb, Nat.zero_add])
    rw [hsame, hbody'] at hbody
    cases hbody
    rw [hblock'] at hblock
    cases hblock
    rw [getElem?_eq_getElem hlt, Option.map_some, Option.some.injEq]
    exact Prod.ext hsame hheader.symm

omit [Crypto] in
theorem exists_tipHeight {height : U64} {body : List Byte}
    (h : db.blocks.get? height = some body) : ∃ last, db.tipHeight = some last ∧ height ≤ last := by
  have hmem : height ∈ db.blocks.keys := mem_keys_iff.mpr ⟨body, h⟩
  have hsorted := db.blocks.keys_sorted
  rw [Database.tipHeight]
  rcases eq_nil_or_concat' db.blocks.keys with hnil | ⟨front, last, hkeys⟩
  · rw [hnil] at hmem
    cases hmem
  · rw [hkeys] at hmem hsorted ⊢
    refine ⟨last, getLast?_concat, ?_⟩
    rcases mem_append.mp hmem with hfront | hlast
    · exact ((pairwise_append.mp hsorted).2.2 height hfront last (mem_singleton_self last)).le
    · exact (mem_singleton.mp hlast).le

theorem restoreAttempt_published {ts : List StorageTransaction} (hvouched : Vouched ts db)
    (h : restoreAttempt identity cache true db storedHeight bytes = .ok (some (l, next))) :
    ∃ publisher published snapshot,
      Succeeded ts (.putSnapshot publisher storedHeight published
      (some l.chain.headers.entries)) ∧
      hashBytes published = hashBytes bytes ∧
      SnapshotPayload.decode (bytes.take (bytes.length - checksumSize)) = some snapshot ∧
      l.snapshot = snapshot.ledger ∧ ∀ e ∈ l.chain.headers.entries, ∃ body block,
      db.blocks.get? e.1 = some body ∧
        decodeBlock body = .ok block ∧ block.header = e.2 := by
  obtain ⟨snapshot, record, blocks, hdecode, hcheckpoint, hsnapshot, hcarries, hstored, htip⟩ :=
    restoreAttempt_some h
  obtain ⟨stored, hget, hrecord, hhash⟩ := matchingCheckpoint_some hcheckpoint
  obtain ⟨publisher, published, headers, record', hput, hvalid, rfl⟩ :=
    hvouched storedHeight stored hget
  rw [SnapshotValidationCheckpoint.decode_encode, Option.some.injEq] at hrecord
  subst hrecord
  obtain ⟨hlength, hdigest, -, hpublished, -⟩ := validationCheckpoint_ok hvalid
  have hcount : headers.length = blocks.length := by
    rw [hcarries.tipHeight, Option.map_eq_some_iff] at htip
    obtain ⟨last, hlast, hheight⟩ := htip
    rw [getLast?_eq_getElem?] at hlast
    have hval := hcarries.heights _ last hlast
    have hlt := (List.getElem?_eq_some_iff.mp hlast).1
    rw [hlength, ← hheight, hval]
    omega
  have hheaders : headers = l.chain.headers.entries :=
    (headers_eq_of_stored hdigest hcarries.heights hstored hcount).trans hcarries.entries.symm
  refine ⟨publisher, published, snapshot, hheaders ▸ hput, hpublished.symm.trans hhash,
    hdecode, hsnapshot, ?_⟩
  intro e he
  rw [← hheaders] at he
  obtain ⟨i, hi⟩ := mem_iff_getElem?.mp he
  obtain ⟨-, body, block, hbody, hblock, -, hheader⟩ := prefixDigest_getElem hdigest hi
  exact ⟨body, block, hbody, hblock, hheader⟩

/-- Over every sequence of transactions, every checkpoint is about stored bodies: its height is not
above the tip, its digest is the digest of the bodies stored now and its tip hash the hash of the
last of them. And a trusted restore, whose snapshots, checkpoints and bodies may be read at any time
of the run, gives the state of a snapshot on the chain of stored bodies, for whose headers that
snapshot was stored. -/
theorem commits_trusted (ts : List StorageTransaction)
    (hinjective : (snapshotsOf ts).InjOn hashBytes) :
    (∀ height stored, (commits ts).checkpoints.get? height = some stored →
      ∃ record bodies tip block,
      SnapshotValidationCheckpoint.decode stored = some record ∧ record.height = height ∧
      (∃ last, (commits ts).tipHeight = some last ∧ height ≤ last) ∧
      (commits ts).storedPrefix height = some bodies ∧
      record.historyDigest = historyDigest bodies ∧
      (commits ts).blocks.get? height = some tip ∧ decodeBlock tip = .ok block ∧
      record.tipHash = block.hash) ∧
    ∀ (identity : NodeIdentity) (cache : BodyCache) (start : Nat) (generation : Nat → Nat)
      (l : Ledger) (next : Nat),
      loadStreamed identity cache (fun i => commits (ts.take (generation i)))
        (commits (ts.take start)).snapshotsDescending = .ok (some (l, next)) →
      ∃ publisher height bytes snapshot i,
        (height, bytes) ∈ (commits (ts.take start)).snapshotsDescending ∧
        SnapshotPayload.decode (bytes.take (bytes.length - checksumSize)) = some snapshot ∧
        l.snapshot = snapshot.ledger ∧
        Succeeded ts (.putSnapshot publisher height bytes (some l.chain.headers.entries)) ∧
        ∀ e ∈ l.chain.headers.entries, ∃ body block,
          (commits (ts.take (generation i))).blocks.get? e.1 = some body ∧
          decodeBlock body = .ok block ∧
          block.header = e.2 := by
  refine ⟨fun height stored hstored => ?_, fun identity cache start generation l next hload => ?_⟩
  · obtain ⟨identity, bytes, headers, record, -, hvalid, rfl⟩ :=
      vouched_commits ts height stored hstored
    obtain ⟨bodies, tip, block, hbodies, hdigest, htip, hblock, hhash⟩ :=
      validationCheckpoint_prefix hvalid
    exact ⟨record, bodies, tip, block, SnapshotValidationCheckpoint.decode_encode record,
      (validationCheckpoint_ok hvalid).2.2.1, exists_tipHeight htip, hbodies,
        hdigest, htip, hblock,
      hhash⟩
  · obtain ⟨⟨height, bytes⟩, hmem, i, hattempt⟩ := loadStreamedMode_some hload
    obtain ⟨publisher, published, snapshot, hput, hhash, hdecode, hsnapshot, hbodies⟩ :=
      restoreAttempt_published (vouched_commits (ts.take (generation i))) hattempt
    have hpublished := hput.append (ts.drop (generation i))
    rw [take_append_drop] at hpublished
    -- the bytes that were read and those that the checkpoint is for were both brought by
    -- transactions
    have hread : bytes ∈ snapshotsOf ts := by
      obtain ⟨t, ht, hbytes⟩ := snapshots_commits (ts.take start) height bytes
        (get?_eq_some_iff.mpr (mem_reverse.mp hmem))
      exact ⟨t, mem_of_mem_take ht, hbytes⟩
    have hwritten : published ∈ snapshotsOf ts := by
      obtain ⟨before, after, _, hts, -⟩ := hpublished
      exact ⟨_, hts ▸ mem_append_right _ mem_cons_self, rfl⟩
    have heq : published = bytes := hinjective hwritten hread hhash
    exact ⟨publisher, height, bytes, snapshot, i, hmem, hdecode, hsnapshot, heq ▸ hpublished,
      hbodies⟩

end

section Sample

attribute [local instance] Crypto.checksum

def sampleIdentity : NodeIdentity := ⟨Ledger.sampleGenesis.hash, 0⟩

def sampleSnapshot (l : Ledger) (height : U64) (tip : BlockHash) :
    Except NodeError (List Byte) := do
  let payload : SnapshotPayload := ⟨snapshotMagic, snapshotVersion, sampleIdentity.genesisHash,
    sampleIdentity.chainSpecHash, height, tip, l.snapshot⟩
  let payload ← okOr payload.encode (.message "encode snapshot")
  return payload ++ (hashBytes payload).bytes

/-- The ledgers of a short run and the databases before and after its replacement. -/
structure SampleReplacement where
  start : Ledger
  one : Ledger
  other : Ledger
  before : Database
  after : Database

/-- Genesis and a block are stored, with a snapshot after each; then another first block replaces
the first. -/
def sampleReplacement : Except NodeError SampleReplacement := do
  let start ← Ledger.sampleStart.mapError .ledger
  let (first, one) ← start.mine 7 []
  let (_, other) ← start.mine 8 []
  let genesis ← storedCanonicalBlock Ledger.sampleGenesis
  let early ← sampleSnapshot start 0 Ledger.sampleGenesis.hash
  let block ← storedCanonicalBlock first
  let late ← sampleSnapshot one 1 first.hash
  rejectIf (hashBytes early = hashBytes late) (.message "one hash")
  let db ← Database.empty.appendBlockAndReplaceMempool genesis []
  let db ← db.putSnapshotInner sampleIdentity 0 early (some start.chain.headers.entries)
  let db ← db.appendBlockAndReplaceMempool block []
  let before ← db.putSnapshotInner sampleIdentity 1 late (some one.chain.headers.entries)
  let after ← before.replaceBlocksMempoolAndSnapshotStream (other.blockStream before.toNodeDatabase)
    [] none
  return ⟨start, one, other, before, after⟩

/-- The node starts again: snapshot, checkpoint and bodies are read from what was stored. -/
def sampleLoaded (db : Database) : Except (List NodeError) (Option (Ledger × Nat)) :=
  loadStreamed sampleIdentity ⟨1000, 10⟩ (fun _ => db) db.snapshotsDescending

/-- The replacement drops the checkpoint of the block it replaces and keeps the one below, from
which a restart then restores. -/
theorem sampleReplacement_trusted : ∃ r ts l next, sampleReplacement = .ok r ∧
    (snapshotsOf ts).InjOn hashBytes ∧ commits (ts.take 4) = r.before ∧
      commits ts = r.after ∧
    r.before.checkpoints.keys = [0, 1] ∧ r.after.checkpoints.keys = [0] ∧
      sampleLoaded r.after = .ok (some (l, next)) ∧
    (∃ publisher height bytes,
      Succeeded ts (.putSnapshot publisher height bytes (some l.chain.headers.entries))) ∧
    ∃ record, (r.after.checkpoints.get? 0).bind SnapshotValidationCheckpoint.decode = some record ∧
      record.height = 0 := by
  have hok : (sampleReplacement.toOption.any fun r => decide (r.before.checkpoints.keys = [0, 1]) &&
      decide (r.after.checkpoints.keys = [0]) &&
        (sampleLoaded r.after).toOption.any Option.isSome &&
      (r.after.checkpoints.get? 0).isSome) = true := by decide +kernel
  obtain ⟨r, hr, hok⟩ := exists_of_any hok
  simp only [Bool.and_eq_true, decide_eq_true_eq, Option.isSome_iff_exists] at hok
  obtain ⟨⟨⟨hbefore, hafter⟩, hloaded⟩, checkpoint, hcheckpoint⟩ := hok
  obtain ⟨restored, hrestored, hsome⟩ := exists_of_any hloaded
  obtain ⟨⟨l, next⟩, rfl⟩ := Option.isSome_iff_exists.mp hsome
  have hrun := hr
  simp only [sampleReplacement, bind_eq_ok, Prod.exists, mapError_eq_ok, rejectIf_eq_ok,
    return_eq_ok] at hrun
  obtain ⟨start, hstart, first, one, hone, rival, other, hother, genesis, hgenesis, early,
    hearly, block, hblock, late, hlate, _, hdistinct, db₁, hdb₁, db₂, hdb₂, db₃, hdb₃, db₄, hdb₄,
      db₅, hdb₅, rfl⟩ := hrun
  have hbranch :=
    (Ledger.Trimmed.new.commit (.inl ⟨_, hstart⟩)).commit (Ledger.commits_of_mine hother)
  let ts : List StorageTransaction := [.append genesis [],
    .putSnapshot sampleIdentity 0 early (some start.chain.headers.entries), .append block [],
    .putSnapshot sampleIdentity 1 late (some one.chain.headers.entries),
    .replace (hbranch.chainStream db₄.toNodeDatabase) [] none]
  have h₁ : Database.empty.commit (.append genesis []) = db₁ := commit_of_ok hdb₁
  have h₂ : db₁.commit (.putSnapshot sampleIdentity 0 early (some start.chain.headers.entries)) =
      db₂ :=
    commit_of_ok hdb₂
  have h₃ : db₂.commit (.append block []) = db₃ := commit_of_ok hdb₃
  have h₄ : db₃.commit (.putSnapshot sampleIdentity 1 late (some one.chain.headers.entries)) =
      db₄ :=
    commit_of_ok hdb₄
  have h₅ : db₄.commit (.replace (hbranch.chainStream db₄.toNodeDatabase) [] none) = db₅ :=
    commit_of_ok hdb₅
  have hfour : commits (ts.take 4) = db₄ := by
    simp only [ts, commits, List.take, foldl_cons, foldl_nil, h₁, h₂, h₃, h₄]
  have hfive : commits ts = db₅ := by
    simp only [ts, commits, foldl_cons, foldl_nil, h₁, h₂, h₃, h₄, h₅]
  have hsnapshots : ∀ bytes ∈ snapshotsOf ts, bytes = early ∨ bytes = late := by
    rintro bytes ⟨t, ht, hbytes⟩
    simp only [ts, mem_cons, not_mem_nil, or_false] at ht
    rcases ht with rfl | rfl | rfl | rfl | rfl
    · cases hbytes
    · exact .inl (Option.some.inj hbytes).symm
    · cases hbytes
    · exact .inr (Option.some.inj hbytes).symm
    · cases hbytes
  have hinjective : (snapshotsOf ts).InjOn hashBytes := by
    intro bytes hbytes bytes' hbytes' hhash
    rcases hsnapshots bytes hbytes with rfl | rfl <;> rcases hsnapshots bytes' hbytes'
      with rfl | rfl
    · rfl
    · exact absurd hhash hdistinct
    · exact absurd hhash.symm hdistinct
    · rfl
  obtain ⟨hcheckpoints, htrusted⟩ := commits_trusted ts hinjective
  rw [hfive] at hcheckpoints
  obtain ⟨record, _, _, _, hdecode, hheight, -⟩ := hcheckpoints 0 checkpoint hcheckpoint
  obtain ⟨publisher, height, bytes, _, _, _, _, _, hput, _⟩ :=
    htrusted sampleIdentity ⟨1000, 10⟩ 5 (fun _ => 5) l next (by
      change loadStreamed _ _ (fun _ => commits ts)
        (commits ts).snapshotsDescending = _
      rw [hfive]
      exact hrestored)
  exact ⟨_, ts, l, next, hr, hinjective, hfour, hfive, hbefore, hafter, hrestored,
    ⟨publisher, height, bytes, hput⟩, record, by rw [hcheckpoint]; exact hdecode, hheight⟩

end Sample

end Xparq
