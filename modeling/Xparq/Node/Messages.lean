import Xparq.Node.HeaderState
import Xparq.Blockchain.Decode
import Xparq.Lib.RequestTree

/-!
# Messages between peers

A frame carries a message with its length in front. The transport is taken to be lossless, so what
is left of a frame is its bytes and the length checks at both ends. A client is a tree of requests
over `wire`: it sends a frame and waits for the frame that answers it.

Locators and chunks of headers are read back as they were written (`decodeLocator_encodeLocator`,
`decodeHeaderChainChunk_encode`).
-/

namespace Xparq

open Machine Outcome Reader List

/-! ## Frames -/

def writeFrame (bytes : List Byte) : Except PeerError (List Byte) := do
  rejectIf (bytes.length ≥ 2 ^ 32) (.message "P2P frame is too large")
  return bytes

def validateFrameLength (length maximum : Nat) : Except PeerError Unit :=
  rejectIf (length = 0 ∨ length > maximum) (.message "P2P frame size is outside allowed range")

def readFrame (frame : List Byte) (maximum : Nat) : Except PeerError (List Byte) := do
  validateFrameLength frame.length maximum
  return frame

variable {bytes : List Byte} {maximum : Nat} {locator : List BlockHash}
  {headers : List HeaderAtHeight}

theorem writeFrame_ok (h : bytes.length < 2 ^ 32) : writeFrame bytes = .ok bytes := by
  rw [writeFrame, rejectIf, if_neg (Nat.not_le.mpr h)]
  rfl

theorem readFrame_ok {frame : List Byte} (hpos : 0 < frame.length) (hle : frame.length ≤ maximum) :
    readFrame frame maximum = .ok frame := by
  rw [readFrame, validateFrameLength, rejectIf, if_neg]
  · rfl
  · rintro (hzero | hlarge)
    · exact hpos.ne' hzero
    · exact absurd hle (Nat.not_le.mpr hlarge)

/-- A frame is answered by a frame. -/
abbrev wire : HostInterface := ⟨List Byte, fun _ => List Byte⟩

/-- Send a message and read the frame that answers it. -/
def exchange (message : List Byte) (maximum : Nat) : RequestTree wire PeerError (List Byte) := do
  let frame ← RequestTree.lift (writeFrame message)
  let response ← RequestTree.request (I := wire) frame
  RequestTree.lift (readFrame response maximum)

theorem run_exchange {σ : Type} {h : RequestTree.Handler wire PeerError σ}
    {message response : List Byte} {s s' : σ} (hwrite : message.length < 2 ^ 32)
    (hserve : h message s = .ok (response, s')) (hpos : 0 < response.length)
    (hle : response.length ≤ maximum) :
    (exchange message maximum).run h s = .ok (response, s') := by
  rw [exchange, RequestTree.run_bind, RequestTree.run_lift, writeFrame_ok hwrite]
  change RequestTree.run h (RequestTree.request (I := wire) message >>= _) s = _
  rw [RequestTree.run_bind, RequestTree.run_request, hserve, ok_bind, RequestTree.run_lift,
    readFrame_ok hpos hle]
  rfl

/-! ## Locators -/

def maxLocatorHashes : Nat := 64

def getHeadersMessage : Byte := 1
def headersMessage : Byte := 2
def headersCompleteMessage : Byte := 3

def encodeLocator (locator : List BlockHash) : Except PeerError (List Byte) := do
  rejectIf (locator = [] ∨ locator.length > maxLocatorHashes)
    (.message "header locator count is outside allowed range")
  return getHeadersMessage :: Fin.ofNat 256 locator.length :: (locator.map Hash.bytes).flatten

def decodeLocator (bytes : List Byte) : Except PeerError (List BlockHash) := do
  rejectIf (bytes.head? ≠ some getHeadersMessage) (.message "expected get-headers message")
  let count ← okOr (bytes[1]?.map Fin.val) (.message "missing locator count")
  rejectIf (count = 0 ∨ count > maxLocatorHashes ∨ bytes.length ≠ 2 + count * 32)
    (.message "invalid header locator size")
  okOr (all (many Hash.decode count) (bytes.drop 2)) (.message "invalid locator hash")

theorem encodeLocator_eq (hne : locator ≠ []) (hle : locator.length ≤ maxLocatorHashes) :
    encodeLocator locator =
      .ok (getHeadersMessage :: Fin.ofNat 256 locator.length ::
      (locator.map Hash.bytes).flatten) := by
  rw [encodeLocator, rejectIf, if_neg]
  · rfl
  · rintro (hnil | hlarge)
    · exact hne hnil
    · exact absurd hle (Nat.not_le.mpr hlarge)

theorem decodeLocator_encodeLocator (h : encodeLocator locator = .ok bytes) :
    decodeLocator bytes = .ok locator ∧ 0 < bytes.length ∧
      bytes.length ≤ 2 + maxLocatorHashes * 32 := by
  simp only [encodeLocator, bind_eq_ok, rejectIf_eq_ok, not_or, not_lt, gt_iff_lt,
    return_eq_ok] at h
  obtain ⟨_, ⟨hne, hle⟩, rfl⟩ := h
  have hlength := length_sequence Hash.length_bytes locator
  have hpos := length_pos_of_ne_nil hne
  have hcount : (Fin.ofNat 256 locator.length).val = locator.length := by
    rw [maxLocatorHashes] at hle
    exact Nat.mod_eq_of_lt (by omega)
  refine ⟨?_, by simp, by simp only [length_cons, hlength]; omega⟩
  have hcheck : ¬ (locator.length = 0 ∨ locator.length > maxLocatorHashes ∨
      (getHeadersMessage :: Fin.ofNat 256 locator.length ::
        (locator.map Hash.bytes).flatten).length ≠
        2 + locator.length * 32) := by
    simp only [length_cons, hlength]
    omega
  have hread : all (many Hash.decode locator.length) (locator.map Hash.bytes).flatten =
      some locator :=
    (Hash.decode_reads.many locator.length).all.mpr ⟨rfl, sequence_total.mpr rfl⟩
  simp only [decodeLocator, head?_cons, ne_eq, not_true_eq_false, rejectIf, if_false, ok_bind,
    getElem?_cons_succ, getElem?_cons_zero, Option.map_some, okOr, hcount]
  rw [if_neg hcheck, ok_bind, drop_succ_cons, drop_succ_cons, drop_zero, hread]

/-! ## Chunks of headers -/

def maxHeaderChainChunkHeaders : Nat := 32
def maxHeaderChainChunkSize : Nat := 1024 * 1024

def HeaderAtHeight.encode (h : HeaderAtHeight) :
    List Byte := leBytes 8 h.height.val ++ h.header.encode

def readHeaderAtHeight : Reader Byte HeaderAtHeight := do
  let height ← readU64
  let header ← readHeader
  return { height, header }

structure HeaderChainChunk where
  headers : List HeaderAtHeight
  deriving DecidableEq

def HeaderChainChunk.new (headers : List HeaderAtHeight) :
    Except HeaderChainChunkError HeaderChainChunk := do
  rejectIf (headers = []) .empty
  rejectIf (headers.length > maxHeaderChainChunkHeaders) .headerLimitExceeded
  return ⟨headers⟩

def HeaderChainChunk.encode (chunk : HeaderChainChunk) : Option (List Byte) := do
  let count ← encodeLen chunk.headers.length
  return count ++ (chunk.headers.map HeaderAtHeight.encode).flatten

def decodeHeaderChainChunk (bytes : List Byte) : Except HeaderChainChunkError HeaderChainChunk := do
  rejectIf (bytes.length > maxHeaderChainChunkSize) .chunkSizeExceeded
  let (declaredHeaders, _) ← okOr (readLe 4 bytes) .decodeFailed
  rejectIf (declaredHeaders > maxHeaderChainChunkHeaders) .headerLimitExceeded
  let headers ← okOr (all (readVec readHeaderAtHeight) bytes) .decodeFailed
  rejectIf (headers = []) .empty
  rejectIf (headers.length > maxHeaderChainChunkHeaders) .headerLimitExceeded
  return ⟨headers⟩

theorem readHeaderAtHeight_reads : Reads readHeaderAtHeight (fun h code => code = h.encode) := by
  refine (readU64_reads.field fun _ => readHeader_reads.field fun _ => Reads.pure _).congr
    fun h code => ?_
  cases h
  simp [HeaderAtHeight.encode]

theorem HeaderAtHeight.length_encode (h : HeaderAtHeight) : h.encode.length = 120 := by
  simp [HeaderAtHeight.encode, Header.encode]

theorem HeaderChainChunk.new_ok (hne : headers ≠ [])
    (hle : headers.length ≤ maxHeaderChainChunkHeaders) :
    HeaderChainChunk.new headers = .ok ⟨headers⟩ := by
  rw [HeaderChainChunk.new, rejectIf, if_neg hne, ok_bind, rejectIf, if_neg (Nat.not_lt.mpr hle)]
  rfl

/-- A chunk of at most 32 headers is small, and it is read back. -/
theorem decodeHeaderChainChunk_encode (hne : headers ≠ [])
    (hle : headers.length ≤ maxHeaderChainChunkHeaders) :
    ∃ bytes, HeaderChainChunk.encode ⟨headers⟩ = some bytes ∧
      bytes.length ≤ maxHeaderChainChunkSize ∧
      decodeHeaderChainChunk bytes = .ok ⟨headers⟩ := by
  have hlimit : headers.length < 2 ^ 32 := by
    rw [maxHeaderChainChunkHeaders] at hle
    omega
  have hcount : encodeLen headers.length = some (leBytes 4 headers.length) := if_pos hlimit
  have hitems := length_sequence HeaderAtHeight.length_encode headers
  have hsize : (leBytes 4 headers.length ++ (headers.map HeaderAtHeight.encode).flatten).length ≤
      maxHeaderChainChunkSize := by
    rw [maxHeaderChainChunkHeaders] at hle
    rw [length_append, length_leBytes, hitems, maxHeaderChainChunkSize]
    omega
  refine ⟨leBytes 4 headers.length ++ (headers.map HeaderAtHeight.encode).flatten, ?_, hsize, ?_⟩
  · rw [HeaderChainChunk.encode, hcount]
    rfl
  · have hread := (readVec_accepts readHeaderAtHeight_reads.accepts).all (counted_total hcount)
    have hdeclared :=
      readLe_accepts_encodeLen _ _ (headers.map HeaderAtHeight.encode).flatten hcount
    rw [decodeHeaderChainChunk, rejectIf, if_neg (Nat.not_lt.mpr hsize), ok_bind, hdeclared]
    simp only [okOr, ok_bind, hread, rejectIf, if_neg (Nat.not_lt.mpr hle), if_neg hne, pure_eq_ok]

end Xparq
