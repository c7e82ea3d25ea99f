import Xparq.Ledger.Applied
import Xparq.Blockchain.Linked
import Xparq.Node.Mining

/-!
# The history of a ledger

`Ledger.History l trace` says how a ledger came about: by commits, rollbacks and journal
pruning, in any order, from the empty ledger. The trace lists the ledgers below the tip, each
with the block that was committed on it.

Along every history the state is sound, so the deep audit succeeds
(`Reachable.deepAudit`), and `rollbackTip` leads back to the ledger that the trace names, as
long as the journal is there (`Backed.exists_rollbackTip`, `History.rollbacks_restore`).
-/

namespace Xparq

open Machine Outcome OrderedMap LedgerState List

namespace Ledger

section
variable [Crypto]

/-- A block commits: as genesis or on the tip. -/
def Commits (l : Ledger) (b : Block) (l' : Ledger) : Prop :=
  (∃ hash, l.applyGenesis b hash = .ok l') ∨ l.applyBlock b = .ok l'

inductive History : Ledger → List (Ledger × Block) → Prop
  | new : History (Ledger.new systemApplications) []
  | commit {l l' : Ledger} {trace : List (Ledger × Block)} {b : Block} (h : History l trace)
      (hcommit : Commits l b l') : History l' ((l, b) :: trace)
  | rollback {l l' : Ledger} {trace : List (Ledger × Block)} {b : Block} (h : History l trace)
      (hrollback : l.rollbackTip = .ok (b, l')) : History l' trace.tail
  | prune {l : Ledger} {trace : List (Ledger × Block)} (h : History l trace) (height : Height) :
      History (l.pruneRollbackJournalsBefore height) trace

def Reachable (l : Ledger) : Prop := ∃ trace, History l trace

/-! ## One commit -/

/-- What holds of every reachable ledger by itself. -/
structure Consistent (l : Ledger) : Prop where
  applications : l.applications = systemApplications
  sound : l.state.Sound
  linked : l.chain.Linked
  emptyRoot : l.chain.tipHeight = none → l.stateRoot = .ok 0 ∧ l.chainContext = none
  tipRoot : ∀ h header, l.chain.tipHeight = some h → l.chain.headers.get? h = some header →
    l.stateRoot = .ok header.stateRoot
  journals : ∀ k js, l.journals.get? k = some js → ∃ header, l.chain.headers.get? k = some header

theorem consistent_new : Consistent (Ledger.new systemApplications) where
  applications := rfl
  sound := sound_empty
  linked := Chain.linked_empty
  emptyRoot _ := ⟨rfl, rfl⟩
  tipRoot _ _ h := by cases h
  journals _ _ h := by cases h

/-- How a ledger relates to the one its tip was committed on. Journals below the tip may have
been pruned since. -/
structure Links (l p : Ledger) (b : Block) : Prop where
  next : p.chain.validateNextBlock b = .ok ()
  chain : l.chain = p.chain.extend b
  context : p.chain.tipHeight ≠ none → l.chainContext = p.chainContext
  tip : ∀ js, l.journals.get? b.height = some js → JournalsUndo js l.state p.state
  older : ∀ k js, k ≠ b.height → l.journals.get? k = some js → p.journals.get? k = some js

variable {l l' p : Ledger} {b : Block} {trace : List (Ledger × Block)}

theorem Commits.applyValidatedBlock (h : Commits l b l') : l.applyValidatedBlock b = .ok l' := by
  rcases h with ⟨hash, h⟩ | h
  · simp only [applyGenesis, bind_eq_ok] at h
    obtain ⟨_, _, _, _, _, _, _, _, _, _, h⟩ := h
    exact h
  · simp only [applyBlock, bind_eq_ok] at h
    obtain ⟨_, _, _, _, h⟩ := h
    exact h

theorem applyValidatedBlock_eq_ok : l.applyValidatedBlock b = .ok l' ↔ ∃ executed,
    l.executeBlock b = .ok executed ∧ executed.blockWeight = b.header.blockWeight ∧
      b.header.stateRoot = executed.stateRoot ∧ l.chain.validateNextBlock b = .ok () ∧
      l' = { l with
        chain := l.chain.extend b, state := executed.state
        chainContext := some executed.chainContext
        journals := l.journals.insert b.height executed.journals } := by
  simp only [Ledger.applyValidatedBlock, bind_eq_ok, rejectIf_eq_ok, not_not, mapError_eq_ok,
    Chain.insertBlock_eq_ok, return_eq_ok, exists_const, exists_and_left, exists_eq_left, and_assoc,
    @eq_comm _ l']

theorem Consistent.context_eq {context : ChainContext} (hl : Consistent l)
    (hnext : l.chain.validateNextBlock b = .ok ()) (hcontext : l.contextFor b = .ok context)
    (htip : l.chain.tipHeight ≠ none) : some context = l.chainContext := by
  obtain ⟨t, ht⟩ := Option.ne_none_iff_exists'.mp htip
  have hheight := (hl.linked.next hnext ht).1
  have hgenesis : b.isGenesis = false := by
    rw [Block.isGenesis, decide_eq_false_iff_not]
    intro hzero
    rw [hzero] at hheight
    cases hheight
  unfold contextFor at hcontext
  split at hcontext
  · rename_i c hc
    cases hcontext
    exact hc.symm
  · rw [hgenesis] at hcontext
    cases hcontext

theorem Commits.links (hl : Consistent l) (h : Commits l b l') :
    Links l' l b ∧ Consistent l' ∧ ∃ js, l'.journals = l.journals.insert b.height js := by
  obtain ⟨executed, hexecute, _, hroot, hnext, rfl⟩ :=
    applyValidatedBlock_eq_ok.mp h.applyValidatedBlock
  obtain ⟨_, _, _, hrun⟩ := executeBlock_ok hl.applications hl.sound hexecute
  refine ⟨⟨hnext, rfl, hl.context_eq hnext hrun.context, ?_, ?_⟩, ?_, executed.journals, rfl⟩
  · intro js hjs
    change (l.journals.insert b.height executed.journals).get? b.height = some js at hjs
    rw [get?_insert, if_pos rfl, Option.some.injEq] at hjs
    rw [← hjs]
    exact hrun.undo
  · intro k js hk hjs
    change (l.journals.insert b.height executed.journals).get? k = some js at hjs
    rwa [get?_insert, if_neg hk] at hjs
  · refine ⟨hl.applications, hrun.sound, hl.linked.extend hnext, nofun, ?_, ?_⟩
    · rintro _ header ⟨⟩ hheader
      change (l.chain.headers.insert b.height b.header).get? b.height = some header at hheader
      rw [get?_insert, if_pos rfl, Option.some.injEq] at hheader
      rw [← hheader, hroot]
      exact hrun.root
    · intro k js hjs
      change (l.journals.insert b.height executed.journals).get? k = some js at hjs
      change ∃ header, (l.chain.headers.insert b.height b.header).get? k = some header
      rw [get?_insert] at hjs ⊢
      split_ifs at hjs ⊢
      · exact ⟨_, rfl⟩
      · exact hl.journals k js hjs

/-! ## The ledgers below the tip -/

/-- Everything but the journals agrees: the chain, its context and the canonical state. -/
structure Agrees (l m : Ledger) : Prop where
  chain : l.chain = m.chain
  context : l.chainContext = m.chainContext
  state : Same l.state m.state

omit [Crypto] in
theorem Agrees.refl (l : Ledger) : Agrees l l := ⟨rfl, rfl, .refl _⟩

variable {m : Ledger} {blocks : List Block} {js : List StateRollbackJournal} {k a : Height}

omit [Crypto] in
theorem Agrees.trans {n : Ledger} (h : Agrees l m) (h' : Agrees m n) : Agrees l n :=
  ⟨h.chain.trans h'.chain, h.context.trans h'.context, h.state.trans h'.state⟩

/-- The trace leads down from the ledger, one journalled block at a time. -/
inductive Backed : Ledger → List (Ledger × Block) → Prop
  | nil {l : Ledger} (h : Consistent l) (hempty : l.chain.tipHeight = none) : Backed l []
  | cons {l p : Ledger} {b : Block} {trace : List (Ledger × Block)} (h : Consistent l)
      (hlinks : Links l p b) (hprior : Backed p trace) : Backed l ((p, b) :: trace)

theorem Backed.consistent (h : Backed l trace) : Consistent l := by
  cases h with
  | nil h _ => exact h
  | cons h _ _ => exact h

theorem Backed.uncons (h : Backed l ((p, b) :: trace)) : Links l p b ∧ Backed p trace := by
  cases h with
  | cons _ hlinks hprior => exact ⟨hlinks, hprior⟩

theorem Backed.of_agrees (hm : Backed m trace) (h : Agrees l m) (hl : Consistent l)
    (hjournals : ∀ k js, l.journals.get? k = some js → m.journals.get? k = some js) :
    Backed l trace := by
  cases hm with
  | nil _ hempty => exact .nil hl (h.chain ▸ hempty)
  | cons _ hlinks hprior =>
    refine .cons hl ⟨hlinks.next, h.chain.trans hlinks.chain, ?_, ?_, ?_⟩ hprior
    · intro htip
      rw [h.context, hlinks.context htip]
    · intro js hjs
      exact h.state.journalsUndo (hlinks.tip js (hjournals _ js hjs))
    · intro k js hk hjs
      exact hlinks.older k js hk (hjournals k js hjs)

theorem Consistent.of_agrees (hm : Consistent m) (h : Agrees l m)
    (happs : l.applications = systemApplications) (hs : l.state.Sound)
    (hjournals : ∀ k js, l.journals.get? k = some js → ∃ header,
      l.chain.headers.get? k = some header) :
    Consistent l := by
  have hroot : l.stateRoot = m.stateRoot := h.state.applicationStateRoot hs hm.sound
  refine ⟨happs, hs, h.chain ▸ hm.linked, ?_, ?_, hjournals⟩
  · intro htip
    rw [h.chain] at htip
    rw [hroot, h.context]
    exact hm.emptyRoot htip
  · intro height header htip hheader
    rw [h.chain] at htip hheader
    rw [hroot]
    exact hm.tipRoot height header htip hheader

theorem Backed.header_of_mem (h : Backed l trace) {b : Block} (hb : b ∈ trace.map Prod.snd) :
    l.chain.headers.get? b.height = some b.header := by
  induction h with
  | nil _ _ => cases hb
  | @cons l p b' rest _ hlinks _ ih =>
    rw [hlinks.chain]
    change (p.chain.headers.insert b'.height b'.header).get? b.height = _
    rcases mem_cons.mp hb with rfl | hb
    · rw [get?_insert, if_pos rfl]
    · have hheader := ih hb
      rw [get?_insert, if_neg, hheader]
      intro heq
      rw [heq, Chain.header_eq_none_of_next hlinks.next] at hheader
      cases hheader

theorem Backed.height_lt (h : Backed l trace) (hnext : l.chain.validateNextBlock b = .ok ())
    {b' : Block} (hb : b' ∈ trace.map Prod.snd) : b'.height < b.height := by
  obtain ⟨t, ht, hle⟩ := h.consistent.linked.bounded _ _ (h.header_of_mem hb)
  have hheight := (h.consistent.linked.next hnext ht).1
  exact Fin.lt_def.mpr (by have := Fin.le_def.mp hle; omega)

/-! ## Rolling back -/

theorem Consistent.exists_root (hp : Consistent p) :
    ∃ root, p.stateRoot = .ok root ∧ committedRoot p.chain = .ok root := by
  unfold committedRoot
  cases htip : p.chain.tipHeight with
  | none => exact ⟨0, (hp.emptyRoot htip).1, rfl⟩
  | some h =>
    obtain ⟨header, hheader, _⟩ := hp.linked.tip h htip
    refine ⟨header.stateRoot, hp.tipRoot h header htip hheader, ?_⟩
    simp only [Chain.header, hheader]
    rfl

/-- With its journal the tip can be rolled back, and the result agrees with the ledger below. -/
theorem Backed.exists_rollbackTip (h : Backed l ((p, b) :: trace))
    (hjournal : l.journals.get? b.height = some js) :
    ∃ l', l.rollbackTip = .ok (b, l') ∧ Agrees l' p ∧ l'.journals = l.journals.erase b.height ∧
      Backed l' trace := by
  have hl := h.consistent
  obtain ⟨hlinks, hprior⟩ := h.uncons
  have hp := hprior.consistent
  have hheader : l.chain.headers.get? b.height = some b.header := by
    rw [hlinks.chain]
    simp [Chain.extend]
  have htip : l.chain.tipHeight = some b.height := by rw [hlinks.chain]; rfl
  have hroot := hl.tipRoot b.height b.header htip hheader
  obtain ⟨s₁, hfold, hs₁, hsame₁⟩ :=
    (hlinks.tip js hjournal).exists_rollback (.refl l.state) hl.sound hp.sound
  obtain ⟨s₂, hvalid, hs₂, hsame₂⟩ := hs₁.exists_validateSupplyInvariants
  have hsame := hsame₂.trans hsame₁
  have hroot₂ : s₂.applicationStateRoot = p.stateRoot := hsame.applicationStateRoot hs₂ hp.sound
  obtain ⟨root, hproot, hcommitted⟩ := hp.exists_root
  rw [hproot] at hroot₂
  let restored : Ledger := { l with
    chain := p.chain, state := s₂, journals := l.journals.erase b.height
    chainContext := if p.chain.tipHeight = none then none else l.chainContext }
  have hagrees : Agrees restored p := by
    refine ⟨rfl, ?_, hsame⟩
    change (if p.chain.tipHeight = none then none else l.chainContext) = p.chainContext
    split_ifs with hpt
    · exact (hp.emptyRoot hpt).2.symm
    · exact hlinks.context hpt
  have holder : ∀ k js, restored.journals.get? k = some js → p.journals.get? k = some js := by
    intro k js hk
    change (l.journals.erase b.height).get? k = some js at hk
    rw [get?_erase] at hk
    split_ifs at hk with hne
    exact hlinks.older k js hne hk
  have hconsistent : Consistent restored := hp.of_agrees hagrees hl.applications hs₂
    fun k js hk => hp.journals k js (holder k js hk)
  refine ⟨restored, ?_, hagrees, rfl, hprior.of_agrees hagrees hconsistent holder⟩
  have hremove : l.chain.removeTip b.hash = .ok (b, p.chain) := by
    rw [hlinks.chain]
    exact hp.linked.removeTip hlinks.next
  have hhash : l.chain.tipHash = some b.hash := by rw [hlinks.chain]; rfl
  have hblock : l.chain.block b.height = some b := by
    rw [hlinks.chain]
    simp [Chain.block, Chain.extend]
  simp only [rollbackTip, bind_eq_ok, okOr_eq_ok, mapError_eq_ok, rejectIf_eq_ok,
    not_not, Prod.exists, return_eq_ok, Prod.mk.injEq]
  exact ⟨b.height, htip, b.hash, hhash, b, hblock, _, hroot, (), rfl, js, hjournal, s₁,
    hfold, b, p.chain, hremove, s₂, hvalid, root, hcommitted, root, hroot₂, (), rfl, rfl, rfl⟩

theorem rollbackTip_ne_ok {r : Block × Ledger} (h : l.chain.tipHeight = none) :
    l.rollbackTip ≠ .ok r := by
  simp [rollbackTip, h, okOr]

omit [Crypto] in
theorem get?_prune {height : Height}
    (h : (l.pruneRollbackJournalsBefore height).journals.get? k = some js) :
    l.journals.get? k = some js := by
  simp only [pruneRollbackJournalsBefore, get?_retain, Option.filter_eq_some_iff] at h
  exact h.1

theorem Backed.rollbackTip_ok (h : Backed l trace) (hrollback : l.rollbackTip = .ok (b, l')) :
    ∃ p rest, trace = (p, b) :: rest ∧ Agrees l' p ∧ l'.journals = l.journals.erase b.height ∧
      Backed l' rest := by
  cases h with
  | nil _ hempty => exact absurd hrollback (rollbackTip_ne_ok hempty)
  | @cons _ p b' rest hl hlinks hprior =>
    have hjournal : ∃ js, l.journals.get? b'.height = some js := by
      have htip : l.chain.tipHeight = some b'.height := by rw [hlinks.chain]; rfl
      simp only [rollbackTip, bind_eq_ok, okOr_eq_ok, htip, Option.some.injEq] at hrollback
      obtain ⟨_, rfl, _, _, _, _, _, _, _, _, js, hjs, _⟩ := hrollback
      exact ⟨js, hjs⟩
    obtain ⟨js, hjs⟩ := hjournal
    obtain ⟨m, hm, hagrees, hjournals, hbacked⟩ :=
      Backed.exists_rollbackTip (.cons hl hlinks hprior) hjs
    rw [hm, Except.ok.injEq, Prod.mk.injEq] at hrollback
    obtain ⟨rfl, rfl⟩ := hrollback
    exact ⟨p, rest, rfl, hagrees, hjournals, hbacked⟩

/-- Commits put the ledger before them on the trace, rollbacks take it off, and pruning only drops
journals. -/
theorem History.backed (h : History l trace) : Backed l trace := by
  induction h with
  | new => exact .nil consistent_new rfl
  | commit _ hcommit ih =>
    obtain ⟨hlinks, hconsistent, _⟩ := hcommit.links ih.consistent
    exact .cons hconsistent hlinks ih
  | rollback _ hrollback ih =>
    obtain ⟨p, rest, rfl, _, _, hbacked⟩ := ih.rollbackTip_ok hrollback
    exact hbacked
  | @prune l trace _ height ih =>
    have hl := ih.consistent
    have hagrees : Agrees (l.pruneRollbackJournalsBefore height) l := ⟨rfl, rfl, .refl _⟩
    refine ih.of_agrees hagrees (hl.of_agrees hagrees hl.applications hl.sound ?_) fun k js =>
      get?_prune
    intro k js hjs
    exact hl.journals k js (get?_prune hjs)

/-! ## Rolling back several blocks -/

/-- Blocks commit one after another. -/
inductive CommitsAll : Ledger → List Block → Ledger → Prop
  | nil {l : Ledger} : CommitsAll l [] l
  | snoc {l m l' : Ledger} {blocks : List Block} {b : Block} (h : CommitsAll l blocks m)
      (hcommit : Commits m b l') : CommitsAll l (blocks ++ [b]) l'

/-- Roll back a number of blocks, newest first. -/
def rollbacks : Nat → Ledger → Except LedgerError (List Block × Ledger)
  | 0, l => .ok ([], l)
  | n + 1, l => do
      let (b, l) ← l.rollbackTip
      let (blocks, l) ← rollbacks n l
      return (b :: blocks, l)

theorem rollbacks_succ {n : Nat} (h : l.rollbackTip = .ok (b, m))
    (hrest : rollbacks n m = .ok (blocks, l')) : rollbacks (n + 1) l = .ok (b :: blocks, l') := by
  rw [rollbacks, h, ok_bind]
  dsimp only
  rw [hrest]
  rfl

theorem CommitsAll.history (hall : CommitsAll l blocks l') (h : History l trace) :
    ∃ trace', History l' trace' := by
  induction hall with
  | nil => exact ⟨trace, h⟩
  | snoc _ hcommit ih =>
    obtain ⟨trace', h'⟩ := ih
    exact ⟨_, h'.commit hcommit⟩

/-- Committed blocks come off again. The induction is over the committed blocks, newest first,
for every ledger that agrees with the one they led to. -/
theorem CommitsAll.exists_rollbacks (hall : CommitsAll l blocks l')
    (h : History l trace) {x : Ledger} (hx : Consistent x) (hagrees : Agrees x l')
    (hjournals : x.journals = l'.journals) :
    ∃ l'', rollbacks blocks.length x = .ok (blocks.reverse, l'') ∧ Agrees l'' l ∧
      l''.journals = l.journals := by
  induction hall generalizing x with
  | nil => exact ⟨x, rfl, hagrees, hjournals⟩
  | @snoc m l' blocks b hall hcommit ih =>
    obtain ⟨trace', hm⟩ := hall.history h
    have hmc := hm.backed.consistent
    obtain ⟨hlinks, _, js, hjs⟩ := hcommit.links hmc
    have hbacked : Backed x ((m, b) :: trace') :=
      (hm.commit hcommit).backed.of_agrees hagrees hx (by rw [hjournals]; exact fun _ _ h => h)
    have htip : x.journals.get? b.height = some js := by
      rw [hjournals, hjs, get?_insert, if_pos rfl]
    obtain ⟨y, hroll, hagrees', hjournals', hbacked'⟩ := hbacked.exists_rollbackTip htip
    -- the tip had no journal before the block
    have hfresh : m.journals.get? b.height = none := by
      cases hget : m.journals.get? b.height with
      | none => rfl
      | some js' =>
        obtain ⟨header, hheader⟩ := hmc.journals _ _ hget
        rw [Chain.header_eq_none_of_next hlinks.next] at hheader
        cases hheader
    have hy : y.journals = m.journals := by
      rw [hjournals', hjournals, hjs, erase_insert hfresh]
    obtain ⟨l'', hrest, hfinal, hfinalJournals⟩ := ih hbacked'.consistent hagrees' hy
    refine ⟨l'', ?_, hfinal, hfinalJournals⟩
    rw [length_append, length_singleton, reverse_append, reverse_singleton,
      singleton_append]
    exact rollbacks_succ hroll hrest

omit [Crypto] in
theorem exists_journal_of_canRollbackTo {header : Header} (h : l.canRollbackTo a = true)
    (hheader : l.chain.headers.get? k = some header) (hk : a < k) :
    ∃ js, l.journals.get? k = some js := by
  have htake : (k, header) ∈ l.chain.headers.entries.reverse.takeWhile fun e => e.1 > a := by
    refine mem_takeWhile_of_pairwise ?_ (mem_reverse.mpr (get?_eq_some_iff.mp hheader))
      (decide_eq_true hk)
    refine pairwise_reverse.mpr (l.chain.headers.sorted.imp fun hlt hb => decide_eq_true ?_)
    exact (of_decide_eq_true hb).trans hlt
  exact contains_eq_true_iff.mp (all_eq_true.mp h _ htake)

/-- Down to every height above which the journals are there, rolling back succeeds and leads to
what the ledger was at that height. -/
theorem Backed.exists_rollbacks (h : Backed l trace) {tip : Height}
    (htip : l.chain.tipHeight = some tip) (hle : a ≤ tip)
    (hjournals : ∀ k header, l.chain.headers.get? k = some header → a < k →
      ∃ js, l.journals.get? k = some js) :
    ∃ p ∈ l :: trace.map Prod.fst, p.chain.tipHeight = some a ∧
      ∃ l'', rollbacks (tip.val - a.val) l =
          .ok ((trace.map Prod.snd).take (tip.val - a.val), l'') ∧
        Agrees l'' p := by
  induction trace generalizing l tip with
  | nil =>
    cases h with
    | nil _ hempty =>
      rw [hempty] at htip
      cases htip
  | cons entry rest ih =>
    obtain ⟨p, b⟩ := entry
    obtain ⟨hlinks, hp⟩ := h.uncons
    have hheight : tip = b.height := by
      rw [hlinks.chain] at htip
      exact (Option.some.inj htip).symm
    rcases eq_or_lt_of_le hle with rfl | hlt
    · refine ⟨l, mem_cons_self, htip, l, ?_, .refl l⟩
      rw [Nat.sub_self]
      rfl
    · have hheader : l.chain.headers.get? tip = some b.header := by
        rw [hlinks.chain, hheight]
        simp [Chain.extend]
      obtain ⟨js, hjs⟩ := hjournals tip b.header hheader hlt
      rw [hheight] at hjs
      obtain ⟨l', hroll, hagrees, herase, hbacked⟩ := h.exists_rollbackTip hjs
      have hlt' := Fin.lt_def.mp hlt
      obtain ⟨t, ht⟩ : ∃ t, p.chain.tipHeight = some t := by
        cases hpt : p.chain.tipHeight with
        | some t => exact ⟨t, rfl⟩
        | none =>
          rw [hheight, hp.consistent.linked.height_zero hlinks.next hpt] at hlt'
          exact absurd hlt' (Nat.not_lt_zero _)
      have hnext := (hp.consistent.linked.next hlinks.next ht).1
      rw [← hheight] at hnext
      have hjournals' : ∀ k header, l'.chain.headers.get? k = some header → a < k →
          ∃ js, l'.journals.get? k = some js := by
        intro k header hk hak
        rw [hagrees.chain] at hk
        have hne : k ≠ b.height := by
          rintro rfl
          rw [Chain.header_eq_none_of_next hlinks.next] at hk
          cases hk
        have hk' : l.chain.headers.get? k = some header := by
          rw [hlinks.chain]
          change (p.chain.headers.insert b.height b.header).get? k = _
          rw [get?_insert, if_neg hne, hk]
        rw [herase, get?_erase, if_neg hne]
        exact hjournals k header hk' hak
      obtain ⟨q, hq, hqtip, l'', hrest, hfinal⟩ := ih hbacked
        (show l'.chain.tipHeight = some t by rw [hagrees.chain, ht])
        (Fin.le_def.mpr (by omega)) hjournals'
      have hcount : tip.val - a.val = (t.val - a.val) + 1 := by omega
      have hall : rollbacks (tip.val - a.val) l =
          .ok ((((p, b) :: rest).map Prod.snd).take (tip.val - a.val), l'') := by
        rw [hcount]
        exact rollbacks_succ hroll hrest
      rcases mem_cons.mp hq with rfl | hq
      · -- the rolled back ledger stands for the one it agrees with
        exact ⟨p, by simp, hagrees.chain ▸ hqtip, l'', hall, hfinal.trans hagrees⟩
      · exact ⟨q, by simp only [map_cons, mem_cons]; exact .inr (.inr hq), hqtip, l'', hall, hfinal⟩

/-! ## The main results -/

/-- The deep audit succeeds on every reachable ledger, and says what it should. -/
theorem Reachable.deepAudit (h : Reachable l) :
    l.state.auditSupplyInvariants = .ok () ∧
      (∀ id c, l.state.utxos.coins.get? id = some c → c.amount ≠ 0) ∧
      l.state.utxos.sumAmounts = l.state.utxos.totalValue.val ∧
      l.state.utxos.totalValue.val + l.state.coin.totalBurned.val = l.state.coin.totalMined.val ∧
      (∀ id share, l.state.assets.shares.get? id = some share → share.amount ≠ 0 ∧
        ∃ record, l.state.assets.records.get? share.asset = some record) ∧
      (∀ asset record, l.state.assets.records.get? asset = some record →
        record.supply.val + record.totalBurned.val = record.totalMinted.val ∧
        record.supply.val = l.state.assets.supplyOf asset ∧
        record.totalMinted ≤ record.metadata.maxSupply) := by
  obtain ⟨trace, h⟩ := h
  have hs := h.backed.consistent.sound
  refine ⟨hs.auditSupplyInvariants, hs.utxos.nonzero, hs.utxos.total.symm, hs.coin, ?_, ?_⟩
  · intro id share hshare
    exact ⟨hs.supplied.nonzero id share hshare, hs.supplied.recorded id share hshare⟩
  · intro asset record hrecord
    have hvalid := hs.supplied.valid asset record hrecord
    exact ⟨hvalid.minted, hvalid.live.symm, hvalid.capped⟩

/-- Committed blocks come off again in reverse order and leave the ledger as it was. After
pruning the same holds, journals aside, down to every height that `canRollbackTo` allows. -/
theorem History.rollbacks_restore (h : History l trace) :
    (∀ blocks l', CommitsAll l blocks l' → ∃ l'',
      rollbacks blocks.length l' = .ok (blocks.reverse, l'') ∧
      Agrees l'' l ∧ l''.journals = l.journals) ∧
    (∀ tip a, l.chain.tipHeight = some tip → a ≤ tip → l.canRollbackTo a = true →
      ∃ p ∈ l :: trace.map Prod.fst, p.chain.tipHeight = some a ∧
        ∃ l'', rollbacks (tip.val - a.val) l =
            .ok ((trace.map Prod.snd).take (tip.val - a.val), l'') ∧
          Agrees l'' p) := by
  constructor
  · intro blocks l' hall
    obtain ⟨trace', h'⟩ := hall.history h
    exact hall.exists_rollbacks h h'.backed.consistent (.refl l') rfl
  · intro tip a htip hle hcan
    exact h.backed.exists_rollbacks htip hle fun k header hheader hk =>
      exists_journal_of_canRollbackTo hcan hheader hk

/-! ## A sample chain

Over the checksum: a genesis block and blocks that the node's own block building puts on top. -/

def sampleGenesis : Block :=
  ⟨⟨0, 0, 0, genesisTargetBits, 125, 0⟩, 0, none, []⟩

def sampleStart : Except LedgerError Ledger :=
  (Ledger.new systemApplications).applyGenesis sampleGenesis sampleGenesis.hash

/-- Build the next block and commit it. -/
def mine (l : Ledger) (miner : ProgramId) (operations : List BlockOperation) :
    Except NodeError (Block × Ledger) := do
  let b ← l.candidateOperationBlock miner operations
  let l ← (l.applyBlock b).mapError .ledger
  return (b, l)

def sampleMined : Except NodeError (Block × Ledger) := do
  let l ← sampleStart.mapError .ledger
  l.mine 7 []

theorem commits_of_mine {miner : ProgramId} {operations : List BlockOperation}
    (h : l.mine miner operations = .ok (b, l')) : Commits l b l' := by
  simp only [mine, bind_eq_ok, mapError_eq_ok, return_eq_ok, Prod.mk.injEq] at h
  obtain ⟨b', _, l'', hl, rfl, rfl⟩ := h
  exact .inr hl

theorem history_sampleStart (h : sampleStart = .ok l) :
    History l [(Ledger.new systemApplications, sampleGenesis)] :=
  .commit .new (.inl ⟨_, h⟩)

end

section Sample

attribute [local instance] Crypto.checksum

theorem exists_sampleMined :
    ∃ l b l', sampleStart = .ok l ∧ sampleMined = .ok (b, l') ∧ Commits l b l' := by
  have hok : sampleMined.isOk = true := by decide +kernel
  obtain ⟨⟨b, l'⟩, hmined⟩ := exists_of_isOk hok
  have hmined' := hmined
  simp only [sampleMined, bind_eq_ok, mapError_eq_ok] at hmined'
  obtain ⟨l, hl, hmine⟩ := hmined'
  exact ⟨l, b, l', hl, hmined, commits_of_mine hmine⟩

def payerKey : SchemeBytes := ⟨.mlDsa44, List.replicate 1312 0⟩

def payer : ProgramId := (signatureAccount payerKey 0).getD 0

/-- The amounts leave exactly the burn that the payment needs. -/
def payerPayment (b : Block) : BlockOperation :=
  .programCall ⟨payer, ⟨.monetary, 1, []⟩,
    ⟨payer, (b.emission.toList.map fun e => CoinShare.fromEmission
      (domain .emission (emissionOriginBytes b e))), [⟨.program 5, 156205752⟩], ⟨40000⟩⟩,
    ⟨0, payerKey, ⟨.mlDsa44, List.replicate 2420 0⟩⟩⟩

/-- The account of a key mines the first block and pays out of its coin in the second: the blocks
and ledgers before the payment, with it and one block later. -/
def samplePaid : Except NodeError ((Block × Ledger) × (Block × Ledger) × (Block × Ledger)) := do
  let start ← sampleStart.mapError .ledger
  let first ← start.mine payer []
  let paid ← first.2.mine 7 [payerPayment first.1]
  let last ← paid.2.mine 7 []
  return (first, paid, last)

theorem exists_samplePaid :
    ∃ start b₁ l b l' b' l'', samplePaid = .ok ((b₁, l), (b, l'), (b', l'')) ∧
    History l [(start, b₁), (Ledger.new systemApplications, sampleGenesis)] ∧ Commits l b l' ∧
    Commits l' b' l'' := by
  have hok : samplePaid.isOk = true := by decide +kernel
  obtain ⟨_, hsample⟩ := exists_of_isOk hok
  have hsteps := hsample
  simp only [samplePaid, bind_eq_ok, mapError_eq_ok, return_eq_ok, Prod.exists] at hsteps
  obtain ⟨start, hstart, b₁, l, hfirst, b, l', hpaid, b', l'', hlast, rfl⟩ := hsteps
  exact ⟨start, b₁, l, b, l', b', l'', hsample,
    (history_sampleStart hstart).commit (commits_of_mine hfirst), commits_of_mine hpaid,
      commits_of_mine hlast⟩

theorem samplePaid_deepAudit : ∃ first b l' p, samplePaid = .ok (first, (b, l'), p) ∧
    l'.state.auditSupplyInvariants = .ok () := by
  obtain ⟨_, _, l, b, l', _, _, hsample, hhistory, hpaid, _⟩ := exists_samplePaid
  exact ⟨_, b, l', _, hsample, (Reachable.deepAudit ⟨_, hhistory.commit hpaid⟩).1⟩

/-- The payment and the block after it are rolled back. -/
theorem samplePaid_rollbacks :
    ∃ b₁ l b l' b' l'' m, samplePaid = .ok ((b₁, l), (b, l'), (b', l'')) ∧
    rollbacks 2 l'' = .ok ([b', b], m) ∧ Agrees m l := by
  obtain ⟨_, b₁, l, b, l', b', l'', hsample, hhistory, hpaid, hlast⟩ := exists_samplePaid
  obtain ⟨m, hroll, hagrees, _⟩ := (History.rollbacks_restore hhistory).1 [b, b'] l''
    (.snoc (.snoc .nil hpaid) hlast)
  exact ⟨b₁, l, b, l', b', l'', m, hsample, hroll, hagrees⟩

end Sample

end Ledger

end Xparq
