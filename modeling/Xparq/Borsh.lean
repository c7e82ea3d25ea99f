import Xparq.Lib.OrderedMap
import Xparq.Monetary

/-!
# Canonical bytes of the primitive types

What the readers of numbers, hashes, owners, byte vectors and bounded lists accept, as
`Reads` facts: each accepts exactly the bytes the encoder writes. The decoders of the larger
records are put together from these.
-/

namespace Xparq

open Machine Outcome Reader List

/-! ## Numbers and fixed-size values -/

def readU8 : Reader Byte Byte := fun
  | b :: rest => some (b, rest)
  | [] => none

def readU32 (l : List Byte) : Option (U32 × List Byte) := do
  let (v, rest) ← readLe 4 l
  let v ← ofNat? (2 ^ 32) v
  return (v, rest)

theorem readU8_reads : Reads readU8 (fun b code => code = [b]) := by
  intro l b rest
  cases l with
  | nil => simp [readU8]
  | cons c l => simp [readU8]

theorem takeBytes_reads (w : Nat) :
    Reads (takeBytes w) (fun a code => a = code ∧ code.length = w) := by
  intro l a rest
  unfold takeBytes
  split
  · rename_i hw
    simp only [Option.some.injEq, Prod.mk.injEq]
    constructor
    · rintro ⟨rfl, rfl⟩
      exact ⟨l.take w, ⟨rfl, length_take_of_le hw⟩, (take_append_drop w l).symm⟩
    · rintro ⟨code, ⟨rfl, rfl⟩, rfl⟩
      simp
  · rename_i hw
    constructor
    · nofun
    · rintro ⟨code, ⟨-, rfl⟩, rfl⟩
      rw [length_append] at hw
      omega

theorem readLe_reads (w : Nat) :
    Reads (readLe w) (fun v code => v < 256 ^ w ∧ code = leBytes w v) := by
  intro l v rest
  rw [readLe, Option.map_eq_some_iff]
  constructor
  · rintro ⟨⟨bytes, rest'⟩, htake, heq⟩
    cases heq
    obtain ⟨code, ⟨rfl, rfl⟩, rfl⟩ := (takeBytes_reads w _ _ _).mp htake
    exact ⟨bytes, ⟨ofLeBytes_lt bytes, (leBytes_ofLeBytes bytes).symm⟩, rfl⟩
  · rintro ⟨_, ⟨hv, rfl⟩, rfl⟩
    refine ⟨(leBytes w v, rest), ?_, by rw [ofLeBytes_leBytes w v hv]⟩
    exact (takeBytes_reads w _ _ _).mpr ⟨_, ⟨rfl, length_leBytes w v⟩, rfl⟩

theorem readFin_reads {w n : Nat} (hn : n = 256 ^ w) : Reads (fun l => do
    let (v, rest) ← readLe w l
    let v ← ofNat? n v
    return (v, rest)) (fun (v : Fin n) code => code = leBytes w v.val) := by
  intro l v rest
  simp only [bind_eq_some, Prod.exists, ofNat?_eq_some, return_eq_some, Prod.mk.injEq]
  constructor
  · rintro ⟨_, _, hread, _, rfl, rfl, rfl⟩
    obtain ⟨_, ⟨-, rfl⟩, rfl⟩ := (readLe_reads w _ _ _).mp hread
    exact ⟨_, rfl, rfl⟩
  · rintro ⟨_, rfl, rfl⟩
    exact ⟨v.val, rest, (readLe_reads w _ _ _).mpr ⟨_, ⟨hn ▸ v.isLt, rfl⟩, rfl⟩, v, rfl, rfl, rfl⟩

theorem readU32_reads : Reads readU32 (fun v code => code = leBytes 4 v.val) :=
  readFin_reads (by norm_num)

theorem readU64_reads : Reads readU64 (fun v code => code = leBytes 8 v.val) :=
  readFin_reads (by norm_num)

theorem readUnits_reads : Reads readUnits (fun v code => code = leBytes 16 v.val) :=
  readFin_reads (by norm_num)

theorem Hash.bytes_ofBytes {l : List Byte} (h : l.length = 32) : (Hash.ofBytes l).bytes = l := by
  have hlt := ofLeBytes_lt l.reverse
  rw [length_reverse, h, show 256 ^ 32 = 2 ^ 256 by norm_num] at hlt
  have hback := leBytes_ofLeBytes l.reverse
  rw [length_reverse, h] at hback
  rw [Hash.bytes, Hash.ofBytes, Fin.val_ofNat, Nat.mod_eq_of_lt hlt, hback, reverse_reverse]

theorem Hash.decode_reads : Reads Hash.decode (fun h code => code = h.bytes) := by
  intro l h rest
  rw [Hash.decode, Option.map_eq_some_iff]
  constructor
  · rintro ⟨⟨bytes, rest'⟩, htake, heq⟩
    cases heq
    obtain ⟨code, ⟨rfl, hlength⟩, rfl⟩ := (takeBytes_reads 32 _ _ _).mp htake
    exact ⟨bytes, (Hash.bytes_ofBytes hlength).symm, rfl⟩
  · rintro ⟨_, rfl, rfl⟩
    refine ⟨(h.bytes, rest), ?_, by rw [Hash.ofBytes_bytes]⟩
    exact (takeBytes_reads 32 _ _ _).mpr ⟨_, ⟨rfl, h.length_bytes⟩, rfl⟩

theorem Owner.decode_reads : Reads Owner.decode (fun o code => code = o.encode) := by
  intro l o rest
  constructor
  · intro h
    match l with
    | [] => cases h
    | tag :: l =>
      change (if tag = 0 then (takeBytes 32 l).map fun p => (Owner.program (Hash.ofBytes p.1), p.2)
        else none) = _ at h
      split at h
      · rename_i htag
        rw [Option.map_eq_some_iff] at h
        obtain ⟨⟨bytes, rest'⟩, htake, heq⟩ := h
        cases heq
        obtain ⟨_, ⟨rfl, hlength⟩, rfl⟩ := (takeBytes_reads 32 _ _ _).mp htake
        refine ⟨_, rfl, ?_⟩
        rw [Owner.encode, Owner.programId, Hash.bytes_ofBytes hlength, htag]
        rfl
      · cases h
  · rintro ⟨_, rfl, rfl⟩
    exact Owner.decode_encode_append o rest

/-! ## Vectors -/

/-- `deserialize_bounded_vec`. -/
def deserializeBoundedVec {α : Type} (read : Reader Byte α) (maximum : Nat) :
    Reader Byte (List α) := do
  let length ← readLe 4
  require (length ≤ maximum)
  many read length

variable {α : Type} {code : List Byte}

variable {R : α → List Byte → Prop} {read : Reader Byte α} {l : List α}
  {encode : α → Option (List Byte)} {count : List Byte} {P : α → Prop} {V : Type}

theorem deserializeBoundedVec_reads (h : Reads read R) (maximum : Nat) :
    Reads (deserializeBoundedVec read maximum) (fun as code => as.length ≤ maximum ∧
      ∃ count, encodeLen as.length = some count ∧ ∃ items, Sequence R as items ∧
      code = count ++ items) := by
  refine ((readLe_reads 4).check fun length => h.many length).congr fun as code => ?_
  have hwidth : (2 : Nat) ^ 32 = 256 ^ 4 := by norm_num
  simp only [encodeLen, Option.ite_none_right_eq_some, Option.some.injEq]
  constructor
  · rintro ⟨_, _, ⟨⟨hlt, rfl⟩, hle⟩, items, ⟨rfl, hitems⟩, rfl⟩
    exact ⟨hle, _, ⟨hwidth ▸ hlt, rfl⟩, items, hitems, rfl⟩
  · rintro ⟨hle, _, ⟨hlt, rfl⟩, items, hitems, rfl⟩
    exact ⟨_, _, ⟨⟨hwidth ▸ hlt, rfl⟩, hle⟩, items, ⟨rfl, hitems⟩, rfl⟩

/-- A byte vector of an admissible length: the length is checked before any byte is read. -/
def readBytes (admissible : Nat → Prop) [DecidablePred admissible] : Reader Byte (List Byte) := do
  let length ← readLe 4
  require (admissible length)
  takeBytes length

theorem readBytes_reads (admissible : Nat → Prop) [DecidablePred admissible] :
    Reads (readBytes admissible) (fun l code => encodeBytes l = some code ∧
      admissible l.length) := by
  refine ((readLe_reads 4).check fun length => takeBytes_reads length).congr fun l code => ?_
  have hwidth : (2 : Nat) ^ 32 = 256 ^ 4 := by norm_num
  simp only [encodeBytes, encodeLen, Option.map_eq_some_iff, Option.ite_none_right_eq_some,
    Option.some.injEq]
  constructor
  · rintro ⟨_, _, ⟨⟨hlt, rfl⟩, hok⟩, _, ⟨rfl, rfl⟩, rfl⟩
    exact ⟨⟨_, ⟨hwidth ▸ hlt, rfl⟩, rfl⟩, hok⟩
  · rintro ⟨⟨_, ⟨hlt, rfl⟩, rfl⟩, hok⟩
    exact ⟨l.length, _, ⟨⟨hwidth ▸ hlt, rfl⟩, hok⟩, l, ⟨rfl, rfl⟩, rfl⟩

/-- A Borsh vector without a limit of its own. -/
def readVec {α : Type} (read : Reader Byte α) : Reader Byte (List α) := do
  let length ← readLe 4
  many read length

/-- The codes of a vector: its length, then its members. -/
def Counted {α : Type} (R : α → List Byte → Prop) (l : List α) (code : List Byte) : Prop :=
  ∃ count items, encodeLen l.length = some count ∧ Sequence R l items ∧ code = count ++ items

theorem counted_total {encode : α → List Byte} (hcount : encodeLen l.length = some count) :
    Counted (fun a code => code = encode a) l (count ++ (l.map encode).flatten) :=
  ⟨count, _, hcount, sequence_total.mpr rfl, rfl⟩

theorem counted_mapM {parts : List (List Byte)}
    (hcount : encodeLen l.length = some count) (hparts : l.mapM encode = some parts) :
    Counted (fun a code => encode a = some code) l (count ++ parts.flatten) :=
  ⟨count, _, hcount, sequence_mapM.mpr ⟨parts, hparts, rfl⟩, rfl⟩

def encodeVec {α : Type} (encode : α → Option (List Byte)) (l : List α) : Option (List Byte) := do
  let count ← encodeLen l.length
  let items ← l.mapM encode
  return count ++ items.flatten

theorem counted_of_encodeVec (h : encodeVec encode l = some code) :
    Counted (fun a code => encode a = some code) l code := by
  simp only [encodeVec, bind_eq_some, return_eq_some] at h
  obtain ⟨count, hcount, parts, hparts, rfl⟩ := h
  exact counted_mapM hcount hparts

theorem Counted.and (h : Counted R l code)
    (hall : ∀ a ∈ l, P a) : Counted (fun a code => R a code ∧ P a) l code := by
  obtain ⟨count, items, hcount, hitems, rfl⟩ := h
  exact ⟨count, items, hcount, hitems.and hall, rfl⟩

theorem readLe_accepts_encodeLen : Accepts (readLe 4) (fun n code => encodeLen n = some code) := by
  refine (readLe_reads 4).accepts.imp fun n code hcode => ?_
  rw [encodeLen, Option.ite_none_right_eq_some, Option.some.injEq] at hcode
  exact ⟨lt_of_lt_of_eq hcode.1 (by norm_num), hcode.2.symm⟩

theorem readVec_accepts (h : Accepts read R) :
    Accepts (readVec read) (Counted R) := by
  rintro l _ rest ⟨count, items, hcount, hitems, rfl⟩
  rw [readVec, append_assoc, readLe_accepts_encodeLen.run_bind hcount]
  exact h.many hitems rest

theorem deserializeBoundedVec_accepts (h : Accepts read R)
    (maximum : Nat) : Accepts (deserializeBoundedVec read maximum)
      (fun l code => Counted R l code ∧ l.length ≤ maximum) := by
  rintro l _ rest ⟨⟨count, items, hcount, hitems, rfl⟩, hle⟩
  rw [deserializeBoundedVec, append_assoc, readLe_accepts_encodeLen.run_bind hcount,
    run_require hle]
  exact h.many hitems rest

/-- A Borsh map is read as a vector of entries, which are then inserted one by one. -/
def readMap {K V : Type} [LinearOrder K] (readEntry : Reader Byte (K × V)) :
    Reader Byte (OrderedMap K V) := do
  let entries ← readVec readEntry
  return OrderedMap.ofEntries entries

theorem readMap_accepts {K : Type} [LinearOrder K] {readEntry : Reader Byte (K × V)}
    {R : K × V → List Byte → Prop} (h : Accepts readEntry R) :
    Accepts (readMap readEntry) (fun m code => Counted R m.entries code) := by
  intro m code rest hcode
  rw [readMap, (readVec_accepts h).run_bind hcode, OrderedMap.ofEntries_entries]
  rfl

/-- A value under its identifier. -/
def readEntry {V : Type} (readValue : Reader Byte V) : Reader Byte (Hash × V) := do
  let id ← Hash.decode
  let value ← readValue
  return (id, value)

theorem readEntry_accepts {readValue : Reader Byte V} {R : V → List Byte → Prop}
    (h : Accepts readValue R) :
    Accepts (readEntry readValue) (fun e code => ∃ value, R e.2 value ∧
      code = e.1.bytes ++ value) := by
  rintro ⟨id, v⟩ _ rest ⟨value, hvalue, rfl⟩
  rw [readEntry, append_assoc, Hash.decode_reads.accepts.run_bind rfl, h.run_bind hvalue]
  rfl

theorem readString_accepts :
    Accepts readString (fun name code => encodeBytes name = some code ∧ validUtf8 name = true) := by
  rintro name _ rest ⟨hcode, hname⟩
  rw [encodeBytes, Option.map_eq_some_iff] at hcode
  obtain ⟨count, hcount, rfl⟩ := hcode
  have hlength := readLe_accepts_encodeLen _ _ (name ++ rest) hcount
  have htake : takeBytes name.length (name ++ rest) = some (name, rest) :=
    takeBytes_append name rest
  rw [readString, append_assoc, hlength]
  change (takeBytes name.length (name ++ rest)).bind _ = _
  rw [htake]
  exact if_pos hname

/-! ## Tags -/

theorem readTagged_reads {zero one : Reader Byte α} {S : α → List Byte → Prop}
    (hzero : Reads zero R) (hone : Reads one S) :
    Reads (do
      let tag ← readU8
      if tag = 0 then zero else if tag = 1 then one else failure)
    (fun a code => ∃ rest, (R a rest ∧ code = 0 :: rest) ∨ (S a rest ∧ code = 1 :: rest)) := by
  refine (readU8_reads.field fun tag => hzero.ite (hone.ite .failure)).congr fun a code => ?_
  constructor
  · rintro ⟨tag, rest, htag, rfl⟩
    split_ifs at htag with h0 h1
    · exact ⟨rest, .inl ⟨htag, by rw [h0]; rfl⟩⟩
    · exact ⟨rest, .inr ⟨htag, by rw [h1]; rfl⟩⟩
  · rintro ⟨rest, ⟨hrest, rfl⟩ | ⟨hrest, rfl⟩⟩
    · exact ⟨0, rest, by rwa [if_pos rfl], rfl⟩
    · exact ⟨1, rest, by rwa [if_neg (by decide), if_pos rfl], rfl⟩

/-- `Option`: a presence byte and the value. -/
def readOption {α : Type} (read : Reader Byte α) : Reader Byte (Option α) := do
  let tag ← readU8
  if tag = 0 then return none
  else if tag = 1 then return some (← read)
  else failure

theorem readOption_reads (h : Reads read R) :
    Reads (readOption read) (fun o code => match o with
      | none => code = [0]
      | some a => ∃ value, R a value ∧ code = 1 :: value) := by
  refine (readTagged_reads (Reads.pure none) (h.bind fun a => Reads.pure (some a))).congr
    fun o code => ?_
  cases o with
  | none => simp
  | some a => simp

def encodeOption {α : Type} (encode : α → Option (List Byte)) : Option α → Option (List Byte)
  | none => some [0]
  | some a => (encode a).map (1 :: ·)

/-- The codes of an optional value. -/
def OptionCode {α : Type} (R : α → List Byte → Prop) : Option α → List Byte → Prop
  | none, code => code = [0]
  | some a, code => ∃ value, R a value ∧ code = 1 :: value

theorem optionCode_of_encodeOption {o : Option α}
    (h : encodeOption encode o = some code) (hall : ∀ a ∈ o, P a) :
    OptionCode (fun a code => encode a = some code ∧ P a) o code := by
  cases o with
  | none => exact (Option.some.inj h).symm
  | some a =>
    obtain ⟨value, hvalue, rfl⟩ := Option.map_eq_some_iff.mp h
    exact ⟨value, ⟨hvalue, hall a rfl⟩, rfl⟩

theorem readOption_accepts (h : Accepts read R) :
    Accepts (readOption read) (OptionCode R) := by
  intro o code rest hcode
  cases o with
  | none =>
    obtain rfl := hcode
    rfl
  | some a =>
    obtain ⟨value, hvalue, rfl⟩ := hcode
    change (read >>= fun a => pure (some a)) (value ++ rest) = _
    rw [h.run_bind hvalue]
    rfl

end Xparq
