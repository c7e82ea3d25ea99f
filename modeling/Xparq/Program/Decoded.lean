import Xparq.Program.Code
import Xparq.Borsh

/-!
# Decoded application code

`Decoded code decoded` says what the decoder of version-4 code guarantees: every entry is the
instruction written at its offset, its immediate has the width its opcode reads, and both the
instruction after it and the target of a jump are entries again, or the code ends there.
`instructions_decoded` derives it from the decoding loop.
-/

namespace Xparq

open Machine Outcome OrderedMap List

namespace Instruction

/-- The immediate is what the interpreter takes it for when it executes the opcode. -/
structure WellFormed (i : Instruction) : Prop where
  constant : i.op.val = 0x01 → i.immediate.length = 16
  owner : i.op.val = 0x11 → i.immediate.length = 33 ∧ ∃ owner,
    Owner.ofSlice i.immediate = some owner
  jump : i.op.val = 0x20 ∨ i.op.val = 0x21 → i.immediate.length = 4
  bytes : i.op.val = 0x10 → i.immediate.length ≤ maxDataBytes
  plain : i.op.val ∉ [0x01, 0x10, 0x11, 0x20, 0x21] → i.immediate = []

/-- The bytes after the opcode. Only byte strings are written with their length. -/
def operand (i : Instruction) : List Byte :=
  if i.op.val = 0x10 then leBytes 2 i.immediate.length ++ i.immediate else i.immediate

end Instruction

variable {i : Instruction} {rest : List Byte}

theorem immediate_wellFormed {op : Byte} {operand immediate rest' : List Byte} {length : Nat}
    (next : Nat) (hlength : immediateLength op rest = .ok (length, operand))
    (htake : takeBytes length operand = some (immediate, rest'))
    (howner : ¬ (op = 0x11 ∧ Owner.ofSlice immediate = none)) :
    Instruction.WellFormed ⟨op, immediate, next⟩ ∧
      rest = Instruction.operand ⟨op, immediate, next⟩ ++ rest' := by
  obtain ⟨code, ⟨rfl, hwidth⟩, rfl⟩ := (takeBytes_reads _ _ _ _).mp htake
  unfold immediateLength at hlength
  split at hlength
  · next hop =>
    cases hlength
    exact ⟨by constructor <;> simp [hop, hwidth], by simp [Instruction.operand, hop]⟩
  · next hop =>
    cases hlength
    have hsome := Option.ne_none_iff_exists'.mp fun hnone => howner ⟨Fin.ext hop, hnone⟩
    exact ⟨by constructor <;> simp [hop, hwidth, hsome], by simp [Instruction.operand, hop]⟩
  · next hop =>
    cases hlength
    exact ⟨by constructor <;> simp [hop, hwidth], by simp [Instruction.operand, hop]⟩
  · next hop =>
    cases hlength
    exact ⟨by constructor <;> simp [hop, hwidth], by simp [Instruction.operand, hop]⟩
  · next hop =>
    simp only [bind_eq_ok, okOr_eq_ok, rejectIf_eq_ok, not_lt, return_eq_ok, Prod.mk.injEq,
      Prod.exists] at hlength
    obtain ⟨count, operand', hread, _, hmax, rfl, rfl⟩ := hlength
    obtain ⟨written, ⟨hcount, rfl⟩, rfl⟩ := (readLe_reads 2 _ _ _).mp hread
    exact ⟨by constructor <;> simp [hop, hwidth, hmax], by simp [Instruction.operand, hop, hwidth]⟩
  · next hconstant howner' hjump hbranch hbytes =>
    split_ifs at hlength
    cases hlength
    have hnil : immediate = [] := length_eq_zero_iff.mp hwidth
    refine ⟨⟨?_, ?_, ?_, ?_, fun _ => hnil⟩, ?_⟩
    · exact fun hop => absurd hop hconstant
    · exact fun hop => absurd hop howner'
    · exact fun hop => hop.elim (fun hop => absurd hop hjump) (fun hop => absurd hop hbranch)
    · exact fun hop => absurd hop hbytes
    · rw [Instruction.operand, if_neg hbytes]

/-! ## The decoding loop -/

/-- What holds of the entries while the loop stands at offset `pc`. -/
structure DecodedTo (code : List Byte) (pc : Nat) (decoded : OrderedMap Nat Instruction) :
    Prop where
  written : ∀ offset i, decoded.get? offset = some i →
    code.drop offset = i.op :: (i.operand ++ code.drop i.next)
  wellFormed : ∀ offset i, decoded.get? offset = some i → i.WellFormed
  next : ∀ offset i, decoded.get? offset = some i → decoded.contains i.next = true ∨ i.next = pc

variable {code : List Byte} {decoded decoded' : OrderedMap Nat Instruction} {pc : Nat}

theorem DecodedTo.insert (h : DecodedTo code pc decoded) (hwell : i.WellFormed)
    (hwritten : code.drop pc = i.op :: (i.operand ++ code.drop i.next)) :
    DecodedTo code i.next (decoded.insert pc i) := by
  have hcases : ∀ {offset j}, (decoded.insert pc i).get? offset = some j →
      (offset = pc ∧ j = i) ∨ decoded.get? offset = some j := by
    intro offset j hj
    rw [get?_insert] at hj
    split_ifs at hj with heq
    · exact .inl ⟨heq, (Option.some.inj hj).symm⟩
    · exact .inr hj
  have hcontains : ∀ offset, decoded.contains offset = true ∨ offset = pc →
      (decoded.insert pc i).contains offset = true := by
    intro offset hoffset
    rw [OrderedMap.contains, get?_insert]
    split_ifs with heq
    · rfl
    · exact hoffset.resolve_right heq
  refine ⟨?_, ?_, ?_⟩
  · intro offset j hj
    rcases hcases hj with ⟨rfl, rfl⟩ | hj
    · exact hwritten
    · exact h.written offset j hj
  · intro offset j hj
    rcases hcases hj with ⟨rfl, rfl⟩ | hj
    · exact hwell
    · exact h.wellFormed offset j hj
  · intro offset j hj
    rcases hcases hj with ⟨rfl, rfl⟩ | hj
    · exact .inr rfl
    · exact .inl (hcontains _ (h.next offset j hj))

theorem decodeFrom_decodedTo {n : Nat} (hrest : code.drop pc = rest)
    (hlength : pc + rest.length = code.length) (hdecoded : DecodedTo code pc decoded)
    (h : decodeFrom n pc rest decoded = .ok decoded') : DecodedTo code code.length decoded' := by
  induction n generalizing pc rest decoded with
  | zero =>
    cases rest with
    | nil =>
      cases h
      rw [← hlength]
      exact hdecoded
    | cons op rest => cases h
  | succ n ih =>
    cases rest with
    | nil =>
      cases h
      rw [← hlength]
      exact hdecoded
    | cons op rest =>
      simp only [decodeFrom, bind_eq_ok, rejectIf_eq_ok, okOr_eq_ok, Prod.exists] at h
      obtain ⟨_, _, length, operand, himmediate, immediate, rest', htake, _, howner, h⟩ := h
      generalize hnext : pc + 1 + (rest.length - rest'.length) = next at h
      obtain ⟨hwell, hoperand⟩ := immediate_wellFormed next himmediate htake howner
      have hwidth := congrArg List.length hoperand
      rw [length_append] at hwidth
      -- the next offset is where the operand ends
      have hrest' : code.drop next = rest' := by
        rw [← hnext, hwidth, Nat.add_sub_cancel, ← drop_drop, ← drop_drop, hrest, drop_one,
          tail_cons, hoperand]
        exact drop_left
      refine ih hrest' ?_ (hdecoded.insert hwell ?_) h
      · rw [length_cons] at hlength
        omega
      · rw [hrest, hrest', ← hoperand]

/-! ## Whole codes -/

/-- What the decoder guarantees. -/
structure Decoded (code : List Byte) (decoded : OrderedMap Nat Instruction) : Prop extends
    DecodedTo code code.length decoded where
  target : ∀ offset i, decoded.get? offset = some i → i.op.val = 0x20 ∨ i.op.val = 0x21 →
    decoded.contains (jumpTarget i) = true

theorem instructions_decoded (h : instructions code = .ok decoded) : Decoded code decoded := by
  simp only [instructions, bind_eq_ok, rejectIf_eq_ok, return_eq_ok, not_or, not_lt] at h
  obtain ⟨_, ⟨hheader, _⟩, _, _, decoded', hdecode, _, htargets, _, _, rfl⟩ := h
  have hempty : DecodedTo code headerLen ∅ := by constructor <;> simp
  refine ⟨decodeFrom_decodedTo rfl ?_ hempty hdecode, ?_⟩
  · rw [length_drop, Nat.add_sub_of_le hheader]
  · intro offset i hi hop
    by_contra hmissing
    refine htargets ⟨(offset, i), get?_eq_some_iff.mp hi, ?_, eq_false_of_ne_true hmissing⟩
    exact hop.imp (fun h => Fin.ext h) (fun h => Fin.ext h)

/-- The loop may stand here: at an instruction, or at the end of the code, where there is none. -/
def Boundary (code : List Byte) (decoded : OrderedMap Nat Instruction) (pc : Nat) : Prop :=
  decoded.contains pc = true ∨ (pc = code.length ∧ decoded.get? pc = none)

theorem DecodedTo.get?_length (h : DecodedTo code pc decoded) :
    decoded.get? code.length = none := by
  cases hget : decoded.get? code.length with
  | none => rfl
  | some i =>
    have hwritten := h.written _ i hget
    rw [drop_length] at hwritten
    cases hwritten

theorem Decoded.boundary_next (h : Decoded code decoded) (hget : decoded.get? pc = some i) :
    Boundary code decoded i.next := by
  refine (h.next pc i hget).imp_right fun hend => ⟨hend, ?_⟩
  rw [hend]
  exact h.get?_length

theorem Decoded.boundary_jump (h : Decoded code decoded) (hget : decoded.get? pc = some i)
    (hop : i.op.val = 0x20 ∨ i.op.val = 0x21) : Boundary code decoded (jumpTarget i) :=
  .inl (h.target pc i hget hop)

theorem boundary_headerLen {limits : ValidatedCode} (hlimits : validateCode code = .ok limits)
    (hdecoded : instructions code = .ok decoded) : Boundary code decoded headerLen := by
  have hversion : code[4]? = some applicationVersion := by
    have hheader := hdecoded
    simp only [instructions, bind_eq_ok, rejectIf_eq_ok, not_or, not_lt, not_not] at hheader
    obtain ⟨_, ⟨hlength, _, hversion⟩, _⟩ := hheader
    have hget : 4 < code.length := lt_of_lt_of_le (by decide) hlength
    rw [getD_eq_getElem?_getD, getElem?_eq_getElem hget, Option.getD_some] at hversion
    rw [getElem?_eq_getElem hget, hversion]
  rw [validateCode, if_pos hversion] at hlimits
  simp only [validateApplicationCode, hdecoded, bind_eq_ok, rejectIf_eq_ok, Except.ok.injEq, not_or,
    Bool.not_eq_false] at hlimits
  obtain ⟨_, rfl, _, _, _, ⟨_, hcontains⟩, _⟩ := hlimits
  exact .inl hcontains

end Xparq
