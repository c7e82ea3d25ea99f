import Xparq.Lib.Machine
import Mathlib.Algebra.BigOperators.Group.Finset.Piecewise
import Mathlib.Data.Fintype.BigOperators

/-!
# The admission gate

A node bounds the number of validations that run at once by a counter without a lock. `enter` reads
the counter and tries to replace the value it saw by the next one, again and again until this
succeeds or the value it saw is at the limit; a permit that goes out of scope, on whatever path,
takes one off.

The threads are interleaved at their accesses to the counter. What a thread does between two
accesses is its own: the decision to give up is a step apart from the access whose value it rests
on, so that other threads may come in between. `AdmissionSystem.run_bounded` is about all
interleavings of any number of threads: the counter is the number of live permits, it stays within
the limit and does not wrap around, and `enter` fails only if its last access found the counter at
the limit.
-/

namespace Xparq

structure AdmissionGate where
  active : U64
  limit : U64
  deriving DecidableEq

def AdmissionGate.new (limit : U64) : AdmissionGate := ⟨0, limit⟩

/-- Where a thread is in `enter`: outside, or in the loop with the value it saw last. -/
inductive EnterPhase
  | outside
  | entering (active : U64)
  deriving DecidableEq

structure AdmissionThread where
  phase : EnterPhase
  permits : Nat
  deriving DecidableEq

structure AdmissionSystem (n : Nat) where
  gate : AdmissionGate
  threads : Fin n → AdmissionThread
  deriving DecidableEq

/-- The steps of the threads. A weak exchange may also fail although the value is the expected one;
a permit may be handed to another thread. -/
inductive AdmissionStep (n : Nat)
  | load (t : Fin n)
  | exchange (t : Fin n)
  | exchangeFails (t : Fin n)
  | refuse (t : Fin n)
  | drop (t : Fin n)
  | hand (t u : Fin n)
  deriving DecidableEq

namespace AdmissionStep

variable {n : Nat}

/-- The steps that tell the thread the value of the counter. -/
def Reads (t : Fin n) : AdmissionStep n → Prop
  | load u | exchangeFails u => u = t
  | _ => False

/-- The steps of the thread's calls of `enter`. -/
def Enters (t : Fin n) : AdmissionStep n → Prop
  | load u | exchange u | exchangeFails u | refuse u => u = t
  | _ => False

end AdmissionStep

namespace AdmissionSystem

variable {n : Nat}

/-- No thread has done anything. -/
def start (n : Nat) (limit : U64) : AdmissionSystem n := ⟨.new limit, fun _ => ⟨.outside, 0⟩⟩

def setThread (s : AdmissionSystem n) (t : Fin n) (thread : AdmissionThread) : AdmissionSystem n :=
  { s with threads := Function.update s.threads t thread }

def setActive (s : AdmissionSystem n) (active : U64) : AdmissionSystem n :=
  { s with gate := { s.gate with active } }

/-- One step, if the thread can take it. The counter is a machine word: it wraps around. -/
def step (s : AdmissionSystem n) : AdmissionStep n → Option (AdmissionSystem n)
  | .load t =>
    match s.threads t with
    | ⟨.outside, permits⟩ => some (s.setThread t ⟨.entering s.gate.active, permits⟩)
    | _ => none
  | .exchange t =>
    match s.threads t with
    | ⟨.entering active, permits⟩ =>
      if active < s.gate.limit ∧ s.gate.active = active then
        some ((s.setActive (active + 1)).setThread t ⟨.outside, permits + 1⟩)
      else none
    | _ => none
  | .exchangeFails t =>
    match s.threads t with
    | ⟨.entering active, permits⟩ =>
      if active < s.gate.limit then some (s.setThread t ⟨.entering s.gate.active, permits⟩)
        else none
    | _ => none
  | .refuse t =>
    match s.threads t with
    | ⟨.entering active, permits⟩ =>
      if s.gate.limit ≤ active then some (s.setThread t ⟨.outside, permits⟩) else none
    | _ => none
  | .drop t =>
    match s.threads t with
    | ⟨phase, permits + 1⟩ => some ((s.setActive (s.gate.active - 1)).setThread t ⟨phase, permits⟩)
    | _ => none
  | .hand t u =>
    match s.threads t with
    | ⟨phase, permits + 1⟩ =>
      let given := s.setThread t ⟨phase, permits⟩
      some (given.setThread u { given.threads u with permits := (given.threads u).permits + 1 })
    | _ => none

def run (s : AdmissionSystem n) (steps : List (AdmissionStep n)) : Option (AdmissionSystem n) :=
  steps.foldlM step s

/-- The number of live permits. -/
def live (s : AdmissionSystem n) : Nat := ∑ t, (s.threads t).permits

/-! ## What a step does -/

variable {s s' : AdmissionSystem n} {t u : Fin n}

theorem step_load (h : s.step (.load t) = some s') :
    (s.threads t).phase = .outside ∧
      s' = s.setThread t ⟨.entering s.gate.active, (s.threads t).permits⟩ := by
  simp only [step] at h
  split at h
  · next permits hthread =>
    cases h
    rw [hthread]
    exact ⟨rfl, rfl⟩
  · cases h

theorem step_exchange (h : s.step (.exchange t) = some s') :
    (s.threads t).phase = .entering s.gate.active ∧ s.gate.active < s.gate.limit ∧
      s' = (s.setActive (s.gate.active + 1)).setThread t ⟨.outside, (s.threads t).permits + 1⟩ := by
  simp only [step] at h
  split at h
  · next active permits hthread =>
    split_ifs at h with hc
    cases h
    obtain ⟨hlt, rfl⟩ := hc
    rw [hthread]
    exact ⟨rfl, hlt, rfl⟩
  · cases h

theorem step_exchangeFails (h : s.step (.exchangeFails t) = some s') :
    (∃ active, (s.threads t).phase = .entering active) ∧
      s' = s.setThread t ⟨.entering s.gate.active, (s.threads t).permits⟩ := by
  simp only [step] at h
  split at h
  · next active permits hthread =>
    split_ifs at h
    cases h
    rw [hthread]
    exact ⟨⟨active, rfl⟩, rfl⟩
  · cases h

theorem step_refuse (h : s.step (.refuse t) = some s') :
    (∃ active, (s.threads t).phase = .entering active ∧ s.gate.limit ≤ active) ∧
      s' = s.setThread t ⟨.outside, (s.threads t).permits⟩ := by
  simp only [step] at h
  split at h
  · next active permits hthread =>
    split_ifs at h with hle
    cases h
    rw [hthread]
    exact ⟨⟨active, rfl, hle⟩, rfl⟩
  · cases h

theorem step_drop (h : s.step (.drop t) = some s') :
    ∃ permits, (s.threads t).permits = permits + 1 ∧
      s' = (s.setActive (s.gate.active - 1)).setThread t ⟨(s.threads t).phase, permits⟩ := by
  simp only [step] at h
  split at h
  · next phase permits hthread =>
    cases h
    rw [hthread]
    exact ⟨permits, rfl, rfl⟩
  · cases h

theorem step_hand (h : s.step (.hand t u) = some s') :
    ∃ permits given, (s.threads t).permits = permits + 1 ∧
      given = s.setThread t ⟨(s.threads t).phase, permits⟩ ∧
      s' = given.setThread u ⟨(given.threads u).phase, (given.threads u).permits + 1⟩ := by
  simp only [step] at h
  split at h
  · next phase permits hthread =>
    cases h
    rw [hthread]
    exact ⟨permits, _, rfl, rfl, rfl⟩
  · cases h

/-! ## The counter -/

theorem threads_setThread (s : AdmissionSystem n) (t u : Fin n) (thread : AdmissionThread) :
    (s.setThread t thread).threads u = if u = t then thread else s.threads u :=
  Function.update_apply _ _ _ _

theorem live_setThread (s : AdmissionSystem n) (t : Fin n) (thread : AdmissionThread) :
    (s.setThread t thread).live + (s.threads t).permits = s.live + thread.permits := by
  have hrest : ∀ u ∈ Finset.univ.erase t,
      ((s.setThread t thread).threads u).permits = (s.threads u).permits := by
    intro u hu
    rw [threads_setThread, if_neg (Finset.ne_of_mem_erase hu)]
  have hself : ((s.setThread t thread).threads t).permits = thread.permits := by
    rw [threads_setThread, if_pos rfl]
  rw [live, live, ← Finset.add_sum_erase _ _ (Finset.mem_univ t), Finset.sum_congr rfl hrest, hself,
    ← Finset.add_sum_erase Finset.univ (fun u => (s.threads u).permits) (Finset.mem_univ t)]
  omega

theorem permits_le_live (s : AdmissionSystem n) (t : Fin n) : (s.threads t).permits ≤ s.live :=
  (Nat.le_add_left _ _).trans (live_setThread s t ⟨.outside, 0⟩).le

/-- The counter is the number of live permits, within the limit. -/
structure Bounded (limit : U64) (s : AdmissionSystem n) : Prop where
  limit_eq : s.gate.limit = limit
  active_eq : s.gate.active.val = s.live
  active_le : s.gate.active ≤ limit

variable {limit : U64} {action : AdmissionStep n} {steps : List (AdmissionStep n)}

theorem bounded_start (n : Nat) (limit : U64) : Bounded limit (start n limit) where
  limit_eq := rfl
  active_eq := by simp [start, live, AdmissionGate.new]
  active_le := Fin.zero_le _

theorem Bounded.setPhase (h : Bounded limit s) (t : Fin n) (phase : EnterPhase) :
    Bounded limit (s.setThread t ⟨phase, (s.threads t).permits⟩) where
  limit_eq := h.limit_eq
  active_eq := by
    have hlive := live_setThread s t ⟨phase, (s.threads t).permits⟩
    rw [← Nat.add_right_cancel hlive.symm]
    exact h.active_eq
  active_le := h.active_le

variable {active : U64}

theorem val_add_one (h : active < limit) : (active + 1).val = active.val + 1 := by
  have hlt : active.val < limit.val := h
  have hone : (1 : U64).val = 1 := rfl
  rw [Fin.val_add, hone, Nat.mod_eq_of_lt (by omega)]

theorem val_sub_one (h : 0 < active.val) : (active - 1).val + 1 = active.val := by
  have hone : (1 : U64) ≤ active := h
  rw [Fin.sub_val_of_le hone]
  exact Nat.sub_add_cancel h

theorem Bounded.step (h : Bounded limit s) (hstep : s.step action = some s') :
    Bounded limit s' := by
  cases action with
  | load t =>
    obtain ⟨_, rfl⟩ := step_load hstep
    exact h.setPhase t _
  | exchangeFails t =>
    obtain ⟨_, rfl⟩ := step_exchangeFails hstep
    exact h.setPhase t _
  | refuse t =>
    obtain ⟨_, rfl⟩ := step_refuse hstep
    exact h.setPhase t _
  | exchange t =>
    obtain ⟨_, hlt, rfl⟩ := step_exchange hstep
    rw [h.limit_eq] at hlt
    have hlive :=
      live_setThread (s.setActive (s.gate.active + 1)) t ⟨.outside, (s.threads t).permits + 1⟩
    have hval := val_add_one hlt
    have hactive := h.active_eq
    refine ⟨h.limit_eq, ?_, ?_⟩
    · change (s.gate.active + 1).val = _
      change _ + (s.threads t).permits = s.live + ((s.threads t).permits + 1) at hlive
      omega
    · change (s.gate.active + 1).val ≤ limit.val
      rw [hval]
      exact hlt
  | drop t =>
    obtain ⟨permits, hpermits, rfl⟩ := step_drop hstep
    have hlive := live_setThread (s.setActive (s.gate.active - 1)) t ⟨(s.threads t).phase, permits⟩
    change _ + (s.threads t).permits = s.live + permits at hlive
    have hheld := permits_le_live s t
    have hactive := h.active_eq
    have hval : (s.gate.active - 1).val + 1 = s.gate.active.val := val_sub_one (by omega)
    have hle : s.gate.active.val ≤ limit.val := h.active_le
    refine ⟨h.limit_eq, ?_, ?_⟩
    · change (s.gate.active - 1).val = _
      omega
    · change (s.gate.active - 1).val ≤ limit.val
      omega
  | hand t u =>
    obtain ⟨permits, given, hpermits, rfl, rfl⟩ := step_hand hstep
    refine ⟨h.limit_eq, ?_, h.active_le⟩
    have hgiven := live_setThread s t ⟨(s.threads t).phase, permits⟩
    have hlive := live_setThread (s.setThread t ⟨(s.threads t).phase, permits⟩) u
      ⟨((s.setThread t ⟨(s.threads t).phase, permits⟩).threads u).phase,
        ((s.setThread t ⟨(s.threads t).phase, permits⟩).threads u).permits + 1⟩
    have hactive : s.gate.active.val = s.live := h.active_eq
    change s.gate.active.val = _
    dsimp only at hgiven hlive
    omega

theorem run_concat (s : AdmissionSystem n) (steps : List (AdmissionStep n))
    (action : AdmissionStep n) :
    s.run (steps ++ [action]) = (s.run steps).bind fun s => s.step action := by
  simp [run, List.foldlM_append]

theorem Bounded.run (h : Bounded limit s) (hrun : s.run steps = some s') : Bounded limit s' := by
  induction steps generalizing s with
  | nil =>
    cases hrun
    exact h
  | cons action steps ih =>
    obtain ⟨s₁, hstep, hrest⟩ := Option.bind_eq_some_iff.mp hrun
    exact ih (h.step hstep) hrest

/-! ## What a thread in `enter` has seen -/

theorem phase_of_step (hstep : s.step action = some s')
    (h : (s'.threads t).phase = .entering active) :
    (action.Reads t ∧ s.gate.active = active) ∨
      (¬ action.Enters t ∧ (s.threads t).phase = .entering active) := by
  cases action with
  | load u =>
    obtain ⟨_, rfl⟩ := step_load hstep
    rw [threads_setThread] at h
    split_ifs at h with hu
    · cases h
      exact .inl ⟨hu.symm, rfl⟩
    · exact .inr ⟨fun hut => hu hut.symm, h⟩
  | exchangeFails u =>
    obtain ⟨_, rfl⟩ := step_exchangeFails hstep
    rw [threads_setThread] at h
    split_ifs at h with hu
    · cases h
      exact .inl ⟨hu.symm, rfl⟩
    · exact .inr ⟨fun hut => hu hut.symm, h⟩
  | exchange u =>
    obtain ⟨_, _, rfl⟩ := step_exchange hstep
    rw [threads_setThread] at h
    split_ifs at h with hu
    exact .inr ⟨fun hut => hu hut.symm, h⟩
  | refuse u =>
    obtain ⟨_, rfl⟩ := step_refuse hstep
    rw [threads_setThread] at h
    split_ifs at h with hu
    exact .inr ⟨fun hut => hu hut.symm, h⟩
  | drop u =>
    obtain ⟨permits, _, rfl⟩ := step_drop hstep
    refine .inr ⟨id, ?_⟩
    rw [threads_setThread] at h
    split_ifs at h with hu
    · rw [hu]
      exact h
    · exact h
  | hand u w =>
    obtain ⟨permits, given, _, hgiven, rfl⟩ := step_hand hstep
    refine .inr ⟨id, ?_⟩
    have hphase : (given.threads t).phase = (s.threads t).phase := by
      rw [hgiven, threads_setThread]
      split_ifs with hu
      · rw [hu]
      · rfl
    rw [threads_setThread] at h
    split_ifs at h with hw
    · rw [← hphase, hw]
      exact h
    · rw [← hphase]
      exact h

/-- The access that gave a thread its value, with no later attempt of the thread to enter. -/
theorem exists_read (hrun : (start n limit).run steps = some s)
    (h : (s.threads t).phase = .entering active) :
    ∃ before access after s', steps = before ++ access :: after ∧ access.Reads t ∧
      (∀ a ∈ after, ¬ a.Enters t) ∧ (start n limit).run before = some s' ∧
      s'.gate.active = active := by
  induction steps using List.reverseRecOn generalizing s with
  | nil =>
    cases hrun
    cases h
  | append_singleton steps action ih =>
    rw [run_concat, Option.bind_eq_some_iff] at hrun
    obtain ⟨s₁, hrun, hstep⟩ := hrun
    rcases phase_of_step hstep h with ⟨hreads, hactive⟩ | ⟨hother, hphase⟩
    · exact ⟨steps, action, [], s₁, rfl, hreads, fun _ hmem => absurd hmem List.not_mem_nil, hrun,
        hactive⟩
    · obtain ⟨before, access, after, s', rfl, hreads, hafter, hbefore, hactive⟩ := ih hrun hphase
      refine ⟨before, access, after ++ [action], s',
        by simp, hreads, fun a ha => ?_, hbefore, hactive⟩
      rcases List.mem_append.mp ha with ha | ha
      · exact hafter a ha
      · rw [List.mem_singleton.mp ha]
        exact hother

/-- For any number of threads and any interleaving: the counter is the number of live permits and
within the limit, no step wraps it around, and a refused `enter` found it at the limit at its last
access. -/
theorem run_bounded (n : Nat) (limit : U64) {steps : List (AdmissionStep n)} {s : AdmissionSystem n}
    (hrun : (start n limit).run steps = some s) :
    s.gate.active.val = s.live ∧ s.gate.active ≤ limit ∧
    (∀ t s', s.step (.exchange t) = some s' → s'.gate.active.val = s.gate.active.val + 1) ∧
    (∀ t s', s.step (.drop t) = some s' → s'.gate.active.val + 1 = s.gate.active.val) ∧
    ∀ t s', s.step (.refuse t) = some s' →
      ∃ before access after atAccess, steps = before ++ access :: after ∧ access.Reads t ∧
        (∀ a ∈ after, ¬ a.Enters t) ∧ (start n limit).run before = some atAccess ∧
        atAccess.gate.active = limit := by
  have hbounded := (bounded_start n limit).run hrun
  refine ⟨hbounded.active_eq, hbounded.active_le, fun t s' hstep => ?_, fun t s' hstep => ?_,
    fun t s' hstep => ?_⟩
  · obtain ⟨_, hlt, rfl⟩ := step_exchange hstep
    exact val_add_one hlt
  · obtain ⟨permits, hpermits, rfl⟩ := step_drop hstep
    have hheld := permits_le_live s t
    have hactive := hbounded.active_eq
    exact val_sub_one (by omega)
  · obtain ⟨⟨active, hphase, hle⟩, _⟩ := step_refuse hstep
    obtain ⟨before, access, after, atAccess, hsteps, hreads, hafter, hbefore, rfl⟩ :=
      exists_read hrun hphase
    rw [hbounded.limit_eq] at hle
    exact ⟨before, access, after, atAccess, hsteps, hreads, hafter, hbefore,
      le_antisymm ((bounded_start n limit).run hbefore).active_le hle⟩

/-- Two threads at a gate for one: the second is refused although the first has left by then. -/
theorem run_bounded_two :
    ∃ s s', (start 2 1).run [.load 0, .exchange 0, .load 1, .drop 0] = some s ∧
    s.step (.refuse 1) = some s' ∧ s.live = 0 ∧
    ∃ before access after atAccess,
      [.load 0, .exchange 0, .load 1, .drop 0] = before ++ access :: after ∧
      access.Reads 1 ∧ (start 2 1).run before = some atAccess ∧ atAccess.gate.active = 1 := by
  have hrun : ((start 2 1).run [.load 0, .exchange 0, .load 1, .drop 0]).isSome = true := by decide
  obtain ⟨s, hrun⟩ := Option.isSome_iff_exists.mp hrun
  have hrefuse : (((start 2 1).run [.load 0, .exchange 0, .load 1, .drop 0]).bind fun s =>
      s.step (.refuse 1)).isSome = true := by decide
  rw [hrun, Option.bind_some] at hrefuse
  obtain ⟨s', hrefuse⟩ := Option.isSome_iff_exists.mp hrefuse
  have hactive : ((start 2 1).run [.load 0, .exchange 0, .load 1, .drop 0]).map
      (fun s => s.gate.active.val) =
      some 0 := by decide
  rw [hrun, Option.map_some, Option.some.injEq] at hactive
  obtain ⟨hlive, _, _, _, hlast⟩ := run_bounded 2 1 hrun
  obtain ⟨before, access, after, atAccess, hsteps, hreads, _, hbefore, hlimit⟩ := hlast 1 s' hrefuse
  exact ⟨s, s', hrun, hrefuse, hlive.symm.trans hactive, before, access, after, atAccess, hsteps,
    hreads, hbefore, hlimit⟩

end AdmissionSystem

end Xparq
