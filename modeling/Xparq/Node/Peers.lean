import Xparq.Crypto
import Xparq.Lib.OrderedMap
import Mathlib.Data.Sum.Order
import Mathlib.Data.Prod.Lex

/-!
# The peer store

Addresses that others tell a node about are kept in a bounded store. An address heard of in a peer
list is dialled and passed on; one that a peer announces for itself is passed on only, until a
connection to it has succeeded. Neither is authenticated.

`PeerStore.run_addresses` says what any sequence of such reports does: records with a success stay
as they are, the bounds are kept, and an address that was dialled before is lost if and only if it
is announced without having had a success (`announced_removes_candidate`).
-/

namespace Xparq

open Machine OrderedMap List

inductive IpAddr
  | v4 (ip : U32)
  | v6 (ip : Fin (2 ^ 128))
  deriving DecidableEq

inductive SocketAddr
  | v4 (ip : U32) (port : U16)
  | v6 (ip : Fin (2 ^ 128)) (port : U16) (flowinfo scopeId : U32)
  deriving DecidableEq

namespace SocketAddr

def ip : SocketAddr → IpAddr
  | v4 ip _ => .v4 ip
  | v6 ip _ _ _ => .v6 ip

/-- Addresses are ordered by family, then field by field. -/
def key : SocketAddr → (U32 ×ₗ U16) ⊕ₗ (Fin (2 ^ 128) ×ₗ U16 ×ₗ U32 ×ₗ U32)
  | v4 ip port => Sum.inlₗ (toLex (ip, port))
  | v6 ip port flowinfo scopeId => Sum.inrₗ (toLex (ip, toLex (port, toLex (flowinfo, scopeId))))

theorem key_injective : Function.Injective key := by
  intro a b h
  cases a <;> cases b <;> simp_all [key]

instance : LinearOrder SocketAddr := LinearOrder.lift' key key_injective

end SocketAddr

/-! ## Which addresses are public -/

namespace IpAddr

/-- `to_ipv4_mapped` for the addresses that have one. -/
def canonicalIp : IpAddr → IpAddr
  | v6 ip => if ip.val / 2 ^ 32 = 0xffff then v4 (Fin.ofNat (2 ^ 32) ip.val) else v6 ip
  | ip => ip

/-- Family and leading bits: 16 of the older addresses, 48 of the newer ones. -/
def diversityGroup (ip : IpAddr) : Nat × Nat :=
  match ip.canonicalIp with
  | v4 ip => (4, ip.val / 2 ^ 16)
  | v6 ip => (6, ip.val / 2 ^ 80)

def admissibleIpv4 (ip : U32) : Bool :=
  let a := ip.val / 2 ^ 24
  let b := ip.val / 2 ^ 16 % 256
  let c := ip.val / 2 ^ 8 % 256
  let isUnspecified := ip.val = 0
  let isLoopback := a = 127
  let isPrivate := a = 10 ∨ a = 172 ∧ 16 ≤ b ∧ b ≤ 31 ∨ a = 192 ∧ b = 168
  let isLinkLocal := a = 169 ∧ b = 254
  let isMulticast := 224 ≤ a ∧ a ≤ 239
  let isBroadcast := ip.val = 2 ^ 32 - 1
  ¬ (isUnspecified ∨ isLoopback ∨ isPrivate ∨ isLinkLocal ∨ isMulticast ∨ isBroadcast ∨
    a = 0 ∨ 224 ≤ a ∨
    a = 100 ∧ 64 ≤ b ∧ b ≤ 127 ∨ a = 192 ∧ b = 0 ∧ (c = 0 ∨ c = 2) ∨ a = 198 ∧ (b = 18 ∨ b = 19) ∨
    a = 198 ∧ b = 51 ∧ c = 100 ∨ a = 203 ∧ b = 0 ∧ c = 113)

def admissibleIpv6 (ip : Fin (2 ^ 128)) : Bool :=
  let first := ip.val / 2 ^ 112
  let second := ip.val / 2 ^ 96 % 2 ^ 16
  -- the masks of the source keep the three leading bits of the first segment, the four of the
  -- second
  first / 2 ^ 13 = 1 ∧ ¬ (first = 0x2001 ∧ (second = 0x0db8 ∨ second = 0)) ∧ first ≠ 0x2002 ∧
    ¬ (first = 0x3fff ∧ second / 2 ^ 12 = 0)

def isPublicIp (ip : IpAddr) : Bool :=
  match ip.canonicalIp with
  | v4 ip => admissibleIpv4 ip
  | v6 ip => admissibleIpv6 ip

end IpAddr

def isAdmissibleDiscoveredPeer (address : SocketAddr) : Bool :=
  match address with
  | .v4 ip port => port ≠ 0 ∧ IpAddr.isPublicIp (.v4 ip)
  | .v6 ip port _ scopeId => port ≠ 0 ∧ scopeId = 0 ∧ IpAddr.isPublicIp (.v6 ip)

inductive PeerAddress
  | ip (address : SocketAddr)
  | dns (hostname : List Byte) (port : U16)
  deriving DecidableEq

namespace PeerAddress

def key : PeerAddress → SocketAddr ⊕ₗ (List Byte ×ₗ U16)
  | ip address => Sum.inlₗ address
  | dns hostname port => Sum.inrₗ (toLex (hostname, port))

theorem key_injective : Function.Injective key := by
  intro a b h
  cases a <;> cases b <;> simp_all [key]

instance : LinearOrder PeerAddress := LinearOrder.lift' key key_injective

def isAdmissible : PeerAddress → Bool
  | ip address => isAdmissibleDiscoveredPeer address
  | dns hostname port => port ≠ 0 ∧ hostname ≠ ascii "localhost" ∧
    ¬ ascii ".localhost" <:+ hostname ∧
      ¬ ascii ".local" <:+ hostname ∧ ¬ ascii ".internal" <:+ hostname ∧ ¬ ascii ".lan" <:+ hostname

def isIp : PeerAddress → Bool
  | ip _ => true
  | dns _ _ => false

/-- The diversity group of a numeric address. -/
def group : PeerAddress → Option (Nat × Nat)
  | ip address => some address.ip.diversityGroup
  | dns _ _ => none

end PeerAddress

/-! ## The store -/

def maxDiscoveredPeers : Nat := 128

def maxPeersPerDiversityGroup : Nat := 8

def relayAddressTtlSecs : U64 := 24 * 60 * 60

structure PeerRecord where
  successes : U32
  failures : U32
  lastSuccessUnix : Option U64
  cooldownUntilUnix : Option U64
  relayOnly : Bool
  relayUntilUnix : Option U64
  deriving DecidableEq

structure PeerStore where
  peers : OrderedMap PeerAddress PeerRecord

namespace PeerStore

def empty : PeerStore := ⟨∅⟩

/-- The candidates for dialling, names first. -/
def addresses (store : PeerStore) (now : U64) : List PeerAddress :=
  let candidates := (store.peers.entries.filter fun e =>
    !e.2.relayOnly && e.2.cooldownUntilUnix.all fun expiry => expiry ≤ now).map Prod.fst
  candidates.filter (fun address => !address.isIp) ++ candidates.filter PeerAddress.isIp

/-- How many numeric addresses of a group there are. -/
def groupCount (store : PeerStore) (group : Nat × Nat) : Nat :=
  ((store.peers.keys.filterMap PeerAddress.group).filter fun candidate => candidate = group).length

def hasDiversityCapacity (store : PeerStore) (address : PeerAddress) : Bool :=
  match address.group with
  | none => true
  | some group => store.groupCount group < maxPeersPerDiversityGroup

/-- An address that is not in the store yet, if there is room. -/
def insertNew (store : PeerStore) (address : PeerAddress) (now : U64) (relayOnly : Bool) :
    Bool × PeerStore :=
  if maxDiscoveredPeers ≤ store.peers.length then (false, store)
  else if store.hasDiversityCapacity address = false then (false, store)
  else (true, ⟨store.peers.insert address
    ⟨0, 0, none, none, relayOnly, some (saturatingAdd now relayAddressTtlSecs)⟩⟩)

def insertDiscovered (store : PeerStore) (address : PeerAddress) (now : U64) : Bool × PeerStore :=
  if address.isAdmissible = false then (false, store)
  else match store.peers.get? address with
    | some record =>
      if record.relayOnly = true ∨ record.lastSuccessUnix.isSome then (false, store)
      else
        let nextExpiration := some (saturatingAdd now relayAddressTtlSecs)
        if record.relayUntilUnix = nextExpiration then (false, store)
        else (true, ⟨store.peers.insert address { record with relayUntilUnix := nextExpiration }⟩)
    | none => store.insertNew address now false

def insertAnnounced (store : PeerStore) (address : PeerAddress) (now : U64) : Bool × PeerStore :=
  if address.isAdmissible = false then (false, store)
  else match store.peers.get? address with
    | some record =>
      if record.lastSuccessUnix.isSome then (false, store)
      else
        let nextExpiration := some (saturatingAdd now relayAddressTtlSecs)
        if ¬ (record.relayOnly = false ∨ record.relayUntilUnix ≠ nextExpiration) then (false, store)
        else (true, ⟨store.peers.insert address
          { record with relayOnly := true, relayUntilUnix := nextExpiration }⟩)
    | none => store.insertNew address now true

end PeerStore

/-- A report about an address. -/
inductive PeerReport
  | discovered (address : PeerAddress)
  | announced (address : PeerAddress)
  deriving DecidableEq

namespace PeerReport

def address : PeerReport → PeerAddress
  | discovered address | announced address => address

def isAnnounced : PeerReport → Bool
  | discovered _ => false
  | announced _ => true

/-- The report takes an address without a success off the candidates. -/
def Demotes (address : PeerAddress) (record : PeerRecord) (r : PeerReport) : Prop :=
  r = announced address ∧ address.isAdmissible = true ∧ record.lastSuccessUnix = none

end PeerReport

namespace PeerStore

def report (store : PeerStore) (now : U64) : PeerReport → PeerStore
  | .discovered address => (store.insertDiscovered address now).2
  | .announced address => (store.insertAnnounced address now).2

def run (store : PeerStore) (reports : List (PeerReport × U64)) : PeerStore :=
  reports.foldl (fun store r => store.report r.2 r.1) store

/-! ## What one report does -/

variable {store : PeerStore} {now : U64} {r : PeerReport} {a : PeerAddress} {record : PeerRecord}

theorem insertNew_cases (store : PeerStore) (address : PeerAddress) (now : U64) (relayOnly : Bool) :
    (store.insertNew address now relayOnly).2 = store ∨ (store.peers.length < maxDiscoveredPeers ∧
      store.hasDiversityCapacity address = true ∧
      ∃ record, (store.insertNew address now relayOnly).2.peers =
      store.peers.insert address record) := by
  unfold insertNew
  split_ifs with hlength hcapacity
  · exact .inl rfl
  · exact .inl rfl
  · exact .inr ⟨not_le.mp hlength, by simpa using hcapacity, _, rfl⟩

/-- Nothing, unless an address without a success gets a new expiry, or a new one is entered. -/
theorem report_cases (store : PeerStore) (now : U64) (r : PeerReport) :
    (store.report now r = store ∧
      ∀ record, store.peers.get? r.address = some record → r.Demotes r.address record →
      record.relayOnly = true) ∨
    (∃ record expiry, store.peers.get? r.address = some record ∧ record.lastSuccessUnix = none ∧
      r.address.isAdmissible = true ∧ (store.report now r).peers = store.peers.insert r.address
        { record with relayOnly := record.relayOnly || r.isAnnounced, relayUntilUnix := expiry }) ∨
    (store.peers.get? r.address = none ∧ store.peers.length < maxDiscoveredPeers ∧
      store.hasDiversityCapacity r.address = true ∧
      ∃ record, (store.report now r).peers = store.peers.insert r.address record) := by
  cases r with
  | discovered a =>
    simp only [report, insertDiscovered, PeerReport.address, PeerReport.isAnnounced, Bool.or_false]
    have hother : ∀ record, store.peers.get? a = some record →
        (PeerReport.discovered a).Demotes a record →
        record.relayOnly = true := fun _ _ h => nomatch h.1
    split_ifs with hadmissible
    · exact .inl ⟨rfl, hother⟩
    · cases hget : store.peers.get? a with
      | none =>
        rcases insertNew_cases store a now false with hsame | hnew
        · exact .inl ⟨hsame, nofun⟩
        · exact .inr (.inr ⟨rfl, hnew⟩)
      | some record =>
        rw [hget] at hother
        simp only
        split_ifs with hkeep hsame
        · exact .inl ⟨rfl, hother⟩
        · exact .inl ⟨rfl, hother⟩
        · refine .inr (.inl ⟨record, _, rfl, ?_, by simpa using hadmissible, rfl⟩)
          simpa using (not_or.mp hkeep).2
  | announced a =>
    simp only [report, insertAnnounced, PeerReport.address, PeerReport.isAnnounced, Bool.or_true]
    split_ifs with hadmissible
    · refine .inl ⟨rfl, fun _ _ h => ?_⟩
      rw [h.2.1] at hadmissible
      cases hadmissible
    · cases hget : store.peers.get? a with
      | none =>
        rcases insertNew_cases store a now true with hsame | hnew
        · exact .inl ⟨hsame, nofun⟩
        · exact .inr (.inr ⟨rfl, hnew⟩)
      | some record =>
        simp only
        split_ifs with hsuccess hchanged
        · refine .inl ⟨rfl, ?_⟩
          rintro _ ⟨⟩ ⟨_, _, hnone⟩
          rw [hnone] at hsuccess
          cases hsuccess
        · exact .inr (.inl ⟨record, _, rfl,
            by simpa using hsuccess, by simpa using hadmissible, rfl⟩)
        · refine .inl ⟨rfl, ?_⟩
          rintro _ ⟨⟩ _
          simpa using (not_or.mp hchanged).1

/-- What becomes of a record: success and cooldown stay, and it is taken off the candidates if it is
announced without a success. -/
structure Continues (record record' : PeerRecord) (demoted : Prop) : Prop where
  lastSuccess : record'.lastSuccessUnix = record.lastSuccessUnix
  cooldown : record'.cooldownUntilUnix = record.cooldownUntilUnix
  relayOnly : record'.relayOnly = true ↔ record.relayOnly = true ∨ demoted
  unchanged : record.lastSuccessUnix ≠ none → record' = record

theorem exists_report (h : store.peers.get? a = some record) (now : U64) (r : PeerReport) :
    ∃ record', (store.report now r).peers.get? a = some record' ∧
      Continues record record' (r.Demotes a record) := by
  rcases report_cases store now r with ⟨hsame, hdemotes⟩ | ⟨old, expiry, hget, hnone,
    hadmissible, hpeers⟩ |
    ⟨hget, _, _, new, hpeers⟩
  · rw [hsame]
    refine ⟨record, h, rfl, rfl, ⟨.inl, ?_⟩, fun _ => rfl⟩
    rintro (hrelay | hr)
    · exact hrelay
    · obtain ⟨rfl, _⟩ := id hr
      exact hdemotes record h hr
  · rw [hpeers, get?_insert]
    split_ifs with ha
    · subst ha
      rw [hget] at h
      cases h
      refine ⟨_, rfl, rfl, rfl, ?_, fun hsome => absurd hnone hsome⟩
      cases r with
      | discovered b => simp [PeerReport.isAnnounced, PeerReport.Demotes]
      | announced b =>
        simp only [PeerReport.isAnnounced, Bool.or_true, true_iff]
        exact .inr ⟨rfl, hadmissible, hnone⟩
    · refine ⟨record, h, rfl, rfl, ⟨.inl, ?_⟩, fun _ => rfl⟩
      rintro (hrelay | ⟨rfl, _⟩)
      · exact hrelay
      · exact absurd rfl ha
  · have ha : a ≠ r.address := by
      rintro rfl
      rw [hget] at h
      cases h
    rw [hpeers, get?_insert, if_neg ha]
    refine ⟨record, h, rfl, rfl, ⟨.inl, ?_⟩, fun _ => rfl⟩
    rintro (hrelay | ⟨rfl, _⟩)
    · exact hrelay
    · exact absurd rfl ha

/-! ## The bounds -/

theorem sum_group (group : Nat × Nat) (l : List PeerAddress) :
    ((l.filterMap PeerAddress.group).filter fun candidate => candidate = group).length =
      (l.map fun a => if a.group = some group then 1 else 0).sum := by
  induction l with
  | nil => rfl
  | cons a l ih =>
    rw [map_cons, sum_cons, ← ih, filterMap_cons]
    cases hgroup : a.group with
    | none => simp
    | some g =>
      by_cases hg : g = group
      · simp [hg, Nat.add_comm]
      · simp [hg]

theorem groupCount_eq (store : PeerStore) (group : Nat × Nat) :
    store.groupCount group = sumBy (fun a _ => if a.group = some group then 1
      else 0) store.peers := by
  rw [groupCount, sum_group, sumBy, OrderedMap.keys, map_map]
  rfl

/-- A count of addresses grows by a new address only, and only if there is room. -/
theorem sumBy_report (weight : PeerAddress → Nat) (store : PeerStore) (now : U64) (r : PeerReport) :
    sumBy (fun a _ => weight a) (store.report now r).peers =
      sumBy (fun a _ => weight a) store.peers ∨
    (store.peers.length < maxDiscoveredPeers ∧ store.hasDiversityCapacity r.address = true ∧
      sumBy (fun a _ => weight a) (store.report now r).peers =
        weight r.address + sumBy (fun a _ => weight a) store.peers) := by
  rcases report_cases store now r with ⟨hsame, _⟩ | ⟨old, expiry, hget, _, _, hpeers⟩ |
    ⟨hget, hlength, hcapacity, new, hpeers⟩
  · exact .inl (by rw [hsame])
  · have hput := sumBy_put (fun a (_ : PeerRecord) => weight a) store.peers r.address
      (some { old with relayOnly := old.relayOnly || r.isAnnounced, relayUntilUnix := expiry })
    rw [hget, optionSum_some, optionSum_some] at hput
    rw [hpeers]
    exact .inl (Nat.add_left_cancel hput)
  · refine .inr ⟨hlength, hcapacity, ?_⟩
    rw [hpeers, sumBy_insert_of_get?_none _ hget]

theorem length_report_le (store : PeerStore) (now : U64) (r : PeerReport) :
    (store.report now r).peers.length ≤ max store.peers.length maxDiscoveredPeers := by
  have hreport := sumBy_report (fun _ => 1) store now r
  rw [← length_eq_sumBy, ← length_eq_sumBy] at hreport
  omega

theorem groupCount_report_le (store : PeerStore) (now : U64) (r : PeerReport) (group : Nat × Nat) :
    (store.report now r).groupCount group ≤ max (store.groupCount group)
      maxPeersPerDiversityGroup := by
  have hreport := sumBy_report (fun a => if a.group = some group then 1 else 0) store now r
  rw [← groupCount_eq, ← groupCount_eq] at hreport
  rcases hreport with hsame | ⟨_, hcapacity, hnew⟩
  · exact hsame ▸ le_max_left _ _
  · split_ifs at hnew with hgroup
    · rw [hasDiversityCapacity, hgroup] at hcapacity
      simp only [decide_eq_true_eq] at hcapacity
      omega
    · omega

/-! ## Any number of reports -/

variable {reports : List (PeerReport × U64)}

theorem Continues.trans {record₁ record₂ record₃ : PeerRecord} {demoted demoted' : Prop}
    (h : Continues record₁ record₂ demoted) (h' : Continues record₂ record₃ demoted') :
    Continues record₁ record₃ (demoted ∨ demoted') where
  lastSuccess := h'.lastSuccess.trans h.lastSuccess
  cooldown := h'.cooldown.trans h.cooldown
  relayOnly := by rw [h'.relayOnly, h.relayOnly, or_assoc]
  unchanged hsome := (h'.unchanged (h.lastSuccess ▸ hsome)).trans (h.unchanged hsome)

/-- A stored peer is never lost; what changes in its record is collected report by report. -/
theorem exists_run (h : store.peers.get? a = some record) :
    ∃ record', (store.run reports).peers.get? a = some record' ∧
      Continues record record' (∃ r ∈ reports, r.1.Demotes a record) := by
  induction reports generalizing store record with
  | nil => exact ⟨record, h, rfl, rfl, by simp, fun _ => rfl⟩
  | cons r reports ih =>
    obtain ⟨record₁, hget₁, hfirst⟩ := exists_report h r.2 r.1
    obtain ⟨record₂, hget₂, hrest⟩ := ih hget₁
    refine ⟨record₂, hget₂, ?_⟩
    have hdemotes : (r.1.Demotes a record ∨ ∃ r ∈ reports, r.1.Demotes a record₁) ↔
        ∃ r' ∈ r :: reports, r'.1.Demotes a record := by
      simp only [PeerReport.Demotes, hfirst.lastSuccess, exists_mem_cons_iff]
    rw [← hdemotes]
    exact hfirst.trans hrest

theorem run_le (count : PeerStore → Nat) {limit : Nat}
    (hstep : ∀ store now r, count (PeerStore.report store now r) ≤ max (count store) limit)
    (store : PeerStore) (reports : List (PeerReport × U64)) :
    count (store.run reports) ≤ max (count store) limit := by
  induction reports generalizing store with
  | nil => exact le_max_left _ _
  | cons r reports ih =>
    have hrest := ih (store.report r.2 r.1)
    have hfirst := hstep store r.2 r.1
    change count ((store.report r.2 r.1).run reports) ≤ _
    omega

theorem mem_addresses : a ∈ store.addresses now ↔ ∃ record, store.peers.get? a = some record ∧
    record.relayOnly = false ∧ ∀ expiry, record.cooldownUntilUnix = some expiry → expiry ≤ now := by
  have hcandidate : a ∈ store.addresses now ↔ a ∈ (store.peers.entries.filter fun e =>
      !e.2.relayOnly && e.2.cooldownUntilUnix.all fun expiry => expiry ≤ now).map Prod.fst := by
    unfold addresses
    rw [mem_append, mem_filter, mem_filter]
    cases a.isIp <;> simp
  rw [hcandidate]
  simp only [mem_map, mem_filter, Bool.and_eq_true, Bool.not_eq_true', Option.all_eq_true,
    decide_eq_true_eq, Prod.exists, exists_and_right, exists_eq_right, get?_eq_some_iff]

/-- What reports at non-decreasing times do to the addresses that `addresses` returned before. -/
theorem run_addresses (store : PeerStore) (reports : List (PeerReport × U64)) {start stop : U64}
    (htimes : (start :: (reports.map Prod.snd ++ [stop])).Pairwise (· ≤ ·)) :
    (∀ a record, a ∈ store.addresses start → store.peers.get? a = some record →
      (a ∈ (store.run reports).addresses stop ↔ ¬ ∃ r ∈ reports, r.1.Demotes a record)) ∧
    (∀ a record, store.peers.get? a = some record → record.lastSuccessUnix ≠ none →
      (store.run reports).peers.get? a = some record) ∧
    (store.run reports).peers.length ≤ max store.peers.length maxDiscoveredPeers ∧
    ∀ group, (store.run reports).groupCount group ≤ max (store.groupCount group)
      maxPeersPerDiversityGroup := by
  refine ⟨fun a record ha hget => ?_, fun a record hget hsuccess => ?_, ?_, fun group => ?_⟩
  · obtain ⟨record', hget', hcontinues⟩ := exists_run hget
    obtain ⟨_, hsome, hrelay, hcooldown⟩ := mem_addresses.mp ha
    rw [hget] at hsome
    cases hsome
    have hlater : start ≤ stop := rel_of_pairwise_cons htimes (by simp)
    rw [mem_addresses]
    constructor
    · rintro ⟨_, hsome, hrelay', _⟩ hdemoted
      rw [hget'] at hsome
      cases hsome
      rw [hcontinues.relayOnly.mpr (.inr hdemoted)] at hrelay'
      cases hrelay'
    · intro hkept
      refine ⟨record', hget', ?_, fun expiry hexpiry => ?_⟩
      · rw [← Bool.not_eq_true, hcontinues.relayOnly, hrelay]
        simpa using hkept
      · rw [hcontinues.cooldown] at hexpiry
        exact (hcooldown expiry hexpiry).trans hlater
  · obtain ⟨record', hget', hcontinues⟩ := exists_run hget
    rw [hget', hcontinues.unchanged hsuccess]
  · exact run_le (fun store => store.peers.length) length_report_le store reports
  · exact run_le (fun store => store.groupCount group)
      (fun store now r => groupCount_report_le store now r group)
      store reports

/-- 8.8.8.8:6677. -/
def samplePeer : PeerAddress := .ip (.v4 0x08080808 6677)

/-- A node hears of a peer and would dial it. Anyone who then announces the address takes it off. -/
theorem announced_removes_candidate :
    samplePeer ∈ (empty.run [(.discovered samplePeer, 0)]).addresses 0 ∧
    samplePeer ∉ ((empty.run [(.discovered samplePeer, 0)]).run
      [(.announced samplePeer, 1)]).addresses 1 := by
  decide

/-- Hearing of the address again keeps it. -/
theorem run_addresses_discovered :
    samplePeer ∈ ((empty.run [(.discovered samplePeer, 0)]).run
      [(.discovered samplePeer, 1)]).addresses 1 := by
  have hbefore : samplePeer ∈ (empty.run [(.discovered samplePeer, 0)]).addresses 0 := by decide
  obtain ⟨record, hget, _⟩ := mem_addresses.mp hbefore
  refine ((run_addresses _ [(.discovered samplePeer, 1)] (by decide)).1 samplePeer record
    hbefore hget).mpr ?_
  simp [PeerReport.Demotes]

end PeerStore

end Xparq
