import Xparq.Lib.Outcome
import Mathlib.Algebra.GroupWithZero.Nat
import Mathlib.Logic.Relation

/-!
# Programs that talk to a host through requests

A guest that has no direct access to its host is a tree of requests: it finishes, it
fails, or it asks one request and continues with the answer (`RequestTree`). The host is
a handler from requests to state changes, and `run` executes the guest against it.

Nothing about the guest enters the rules below. A property of the host's state that every
request keeps is kept by every guest (`run_invariant`). `serve` is for hosts that answer with
errors instead of stopping the guest.

What a particular guest does enters through a `Protocol`: which requests are allowed in which
phase. A guest that obeys one lets the host rely on it (`run_obeys`).

`rounds` is a guest's loop. An invariant of guest and host together that counts the rounds left
shows that the loop ends (`run_rounds`).

`Keeps` says what a guest asks and returns as long as the answers are admissible.

`observe` is what an observer of the requests sees of a run, also of one that fails. A host that
pays for what is seen out of a budget bounds it (`observe_budget`).
-/

/-- The requests a guest may ask, with the type of each answer. -/
structure HostInterface where
  Request : Type
  Answer : Request → Type

/-- A guest program over an interface: its next request and what it does with the answer. -/
inductive RequestTree (I : HostInterface) (ε α : Type) where
  | done (a : α)
  | fail (e : ε)
  | ask (r : I.Request) (next : I.Answer r → RequestTree I ε α)

namespace RequestTree

open List

variable {I : HostInterface} {ε α β γ σ τ ω : Type}

def bind : RequestTree I ε α → (α → RequestTree I ε β) → RequestTree I ε β
  | done a, f => f a
  | fail e, _ => fail e
  | ask r next, f => ask r fun x => (next x).bind f

instance : Monad (RequestTree I ε) where
  pure := done
  bind := bind

instance : MonadExcept ε (RequestTree I ε) where
  throw := fail
  tryCatch
    | fail e, handle => handle e
    | t, _ => t

/-- Ask one request and return its answer. -/
def request (r : I.Request) : RequestTree I ε (I.Answer r) := ask r done

/-- A guest step that needs no host. -/
def lift : Except ε α → RequestTree I ε α
  | .ok a => done a
  | .error e => fail e

/-- How a host answers each request and how its state changes. -/
abbrev Handler (I : HostInterface) (ε σ : Type) :=
  (r : I.Request) → σ → Except ε (I.Answer r × σ)

/-- Execute a guest against a host. -/
def run (h : Handler I ε σ) : RequestTree I ε α → σ → Except ε (α × σ)
  | done a, s => .ok (a, s)
  | fail e, _ => .error e
  | ask r next, s =>
    match h r s with
    | .error e => .error e
    | .ok (x, s') => (next x).run h s'

variable {s s' : σ} {h : Handler I ε σ} {a b : α} {t : RequestTree I ε α}
  {step : γ → RequestTree I ε (γ ⊕ α)} {look : I.Request → σ → List ω} {g : γ}

theorem run_ask_eq_ok {r : I.Request} {next : I.Answer r → RequestTree I ε α}
    (hrun : run h (ask r next) s = .ok (a, s')) :
    ∃ x t, h r s = .ok (x, t) ∧ run h (next x) t = .ok (a, s') := by
  rw [run] at hrun
  split at hrun
  · cases hrun
  · exact ⟨_, _, ‹_›, hrun⟩

theorem run_bind (h : Handler I ε σ) (t : RequestTree I ε α) (f : α → RequestTree I ε β) (s : σ) :
    run h (t >>= f) s = (run h t s >>= fun p => run h (f p.1) p.2) := by
  change run h (t.bind f) s = _
  induction t generalizing s with
  | done a => rfl
  | fail e => rfl
  | ask r next ih =>
    simp only [bind, run]
    cases h r s with
    | error e => rfl
    | ok p => exact ih p.1 p.2

@[simp] theorem run_lift (h : Handler I ε σ) (x : Except ε α) (s : σ) :
    run h (lift x) s = x.map fun a => (a, s) := by
  cases x <;> rfl

theorem run_lift_bind (h : Handler I ε σ) (x : Except ε α) (f : α → RequestTree I ε β) (s : σ) :
    run h (lift x >>= f) s = (x >>= fun a => run h (f a) s) := by
  cases x <;> rfl

@[simp] theorem run_request (h : Handler I ε σ) (r : I.Request) (s : σ) :
    run h (request r : RequestTree I ε (I.Answer r)) s = h r s := by
  rw [request, run]
  cases h r s <;> rfl

/-- What every request keeps, every guest keeps. -/
theorem run_invariant (P : σ → Prop) (hstep : ∀ r s x s', P s → h r s = .ok (x, s') → P s')
    (hs : P s) (hrun : run h t s = .ok (a, s')) : P s' := by
  induction t generalizing s with
  | done b =>
    cases hrun
    exact hs
  | fail e => cases hrun
  | ask r next ih =>
    obtain ⟨x, u, hr, hnext⟩ := run_ask_eq_ok hrun
    exact ih x (hstep r s x u hs hr) hnext

theorem run_rel {R : σ → σ → Prop} (hrefl : ∀ s, R s s) (htrans : ∀ a b c, R a b → R b c → R a c)
    (hstep : ∀ r s x s', h r s = .ok (x, s') → R s s') (hrun : run h t s = .ok (a, s')) : R s s' :=
  run_invariant (R s) (fun r u x u' hu hr => htrans s u u' hu (hstep r u x u' hr)) (hrefl s) hrun

theorem run_congr {k : Handler I ε σ} (P : σ → Prop) (hsame : ∀ r s, P s → h r s = k r s)
    (hstep : ∀ r s x s', P s → h r s = .ok (x, s') → P s') (t : RequestTree I ε α) (hs : P s) :
    run h t s = run k t s := by
  induction t generalizing s with
  | done a => rfl
  | fail e => rfl
  | ask r next ih =>
    rw [run, run, ← hsame r s hs]
    cases hr : h r s with
    | error e => rfl
    | ok p => exact ih p.1 (hstep r s p.1 p.2 hs hr)

/-! ## What a guest keeps to -/

section Keeps
variable {A : (r : I.Request) → I.Answer r → Prop} {Q : I.Request → Prop}

/-- As long as the answers are admissible, the guest asks what is allowed and returns what has the
property. -/
def Keeps (A : (r : I.Request) → I.Answer r → Prop) (Q : I.Request → Prop) (R : α → Prop) :
    RequestTree I ε α → Prop
  | done a => R a
  | fail _ => True
  | ask r next => Q r ∧ ∀ x, A r x → Keeps A Q R (next x)

theorem Keeps.pure {R : α → Prop} {a : α} (h : R a) : Keeps A Q R (pure a : RequestTree I ε α) := h

theorem Keeps.throw {R : α → Prop} (e : ε) : Keeps A Q R (throw e : RequestTree I ε α) := trivial

theorem Keeps.lift_bind {R : β → Prop} {x : Except ε α} {f : α → RequestTree I ε β}
    (h : ∀ a, x = .ok a → Keeps A Q R (f a)) : Keeps A Q R (lift x >>= f) := by
  cases x with
  | error e => trivial
  | ok a => exact h a rfl

variable {R : α → Prop} {t : RequestTree I ε α} {h : Handler I ε σ} (P : σ → Prop)

theorem run_keeps (ht : Keeps A Q R t)
    (hstep : ∀ r s x s', P s → h r s = .ok (x, s') → A r x ∧ P s') {s s' : σ} {a : α} (hs : P s)
    (hrun : run h t s = .ok (a, s')) : R a := by
  induction t generalizing s with
  | done b =>
    cases hrun
    exact ht
  | fail e => cases hrun
  | ask r next ih =>
    obtain ⟨x, u, hr, hnext⟩ := run_ask_eq_ok hrun
    obtain ⟨hx, hu⟩ := hstep r s x u hs hr
    exact ih x (ht.2 x hx) hu hnext

end Keeps

/-! ## What an observer sees -/

/-- The observations of a run, in order. A run that fails keeps what was seen until then. -/
def observe (h : Handler I ε σ) (look : I.Request → σ → List ω) : RequestTree I ε α → σ → List ω
  | done _, _ => []
  | fail _, _ => []
  | ask r next, s => look r s ++
    match h r s with
    | .error _ => []
    | .ok (x, s') => (next x).observe h look s'

theorem observe_forall {A : (r : I.Request) → I.Answer r → Prop} {Q : I.Request → Prop}
    {R : α → Prop} (P : σ → Prop) (O : ω → Prop) (hlook : ∀ r s, P s → Q r → ∀ o ∈ look r s, O o)
    (hstep : ∀ r s x s', P s → h r s = .ok (x, s') → A r x ∧ P s') (ht : Keeps A Q R t) (hs : P s) :
    ∀ o ∈ observe h look t s, O o := by
  induction t generalizing s with
  | done a => exact fun o ho => absurd ho not_mem_nil
  | fail e => exact fun o ho => absurd ho not_mem_nil
  | ask r next ih =>
    intro o ho
    rw [observe, mem_append] at ho
    rcases ho with ho | ho
    · exact hlook r s hs ht.1 o ho
    · cases hr : h r s with
      | error e =>
        rw [hr] at ho
        exact absurd ho not_mem_nil
      | ok p =>
        rw [hr] at ho
        obtain ⟨hx, hp⟩ := hstep r s p.1 p.2 hs hr
        exact ih p.1 (ht.2 p.1 hx) hp o ho

/-- What is left of a budget: nothing after a failure. -/
def left (budget : σ → Nat) : Except ε (α × σ) → Nat
  | .ok (_, s) => budget s
  | .error _ => 0

theorem left_bind_le {budget : σ → Nat} {x : Except ε (α × σ)} {f : α × σ → Except ε (β × σ)}
    (h : ∀ p q, f p = .ok q → budget q.2 ≤ budget p.2) : left budget (x >>= f) ≤ left budget x := by
  cases x with
  | error e => exact Nat.le_refl 0
  | ok p =>
    change left budget (f p) ≤ budget p.2
    cases hf : f p with
    | error e => exact Nat.zero_le _
    | ok q => exact h p q hf

/-- If every request pays for what is seen of it, the run pays for everything that is seen. -/
theorem observe_budget (cost : ω → Nat) (budget : σ → Nat)
    (hpay : ∀ r s, ((look r s).map cost).sum + left budget (h r s) ≤ budget s)
    (t : RequestTree I ε α) (s : σ) :
    ((observe h look t s).map cost).sum + left budget (run h t s) ≤ budget s := by
  induction t generalizing s with
  | done a => exact Nat.le_of_eq (Nat.zero_add _)
  | fail e => exact Nat.zero_le _
  | ask r next ih =>
    have hr := hpay r s
    rw [observe, run, map_append, sum_append]
    cases hh : h r s with
    | error e =>
      rw [hh] at hr
      exact hr
    | ok p =>
      rw [hh] at hr
      have hrest := ih p.1 p.2
      simp only [left] at hr
      rw [Nat.add_assoc]
      exact Nat.le_trans (Nat.add_le_add_left hrest _) hr

/-! ## Loops -/

/-- Repeat a guest until it has a result; `none` when the rounds are used up. -/
def rounds (step : γ → RequestTree I ε (γ ⊕ α)) : Nat → γ → RequestTree I ε (Option α)
  | 0, _ => done none
  | n + 1, g => step g >>= fun
      | .inl g => rounds step n g
      | .inr a => done (some a)

/-- The loop ends if an invariant of guest and host tells how many rounds are left before the
last one. -/
theorem run_rounds (J : Nat → γ → σ → Prop) (Q : α → σ → Prop)
    (hlast : ∀ g s, J 0 g s → ∃ a s', run h (step g) s = .ok (.inr a, s') ∧ Q a s')
    (hnext : ∀ n g s, J (n + 1) g s → ∃ g' s', run h (step g) s = .ok (.inl g', s') ∧ J n g' s')
    {n limit : Nat} (hJ : J n g s) (hlimit : n < limit) :
    ∃ a s', run h (rounds step limit g) s = .ok (some a, s') ∧ Q a s' := by
  induction n generalizing limit g s with
  | zero =>
    obtain ⟨limit, rfl⟩ := Nat.exists_eq_add_one_of_ne_zero (Nat.ne_zero_of_lt hlimit)
    obtain ⟨a, s', hrun, hQ⟩ := hlast g s hJ
    refine ⟨a, s', ?_, hQ⟩
    rw [rounds, run_bind, hrun]
    rfl
  | succ n ih =>
    obtain ⟨limit, rfl⟩ := Nat.exists_eq_add_one_of_ne_zero (Nat.ne_zero_of_lt hlimit)
    obtain ⟨g', s', hrun, hJ'⟩ := hnext n g s hJ
    obtain ⟨a, s'', hrest, hQ⟩ := ih hJ' (Nat.lt_of_succ_lt_succ hlimit)
    refine ⟨a, s'', ?_, hQ⟩
    rw [rounds, run_bind, hrun]
    exact hrest

theorem run_rounds_succ (h : Handler I ε σ) (step : γ → RequestTree I ε (γ ⊕ α)) (n : Nat) (g : γ)
    (s : σ) :
    run h (rounds step (n + 1) g) s = run h (step g) s >>= fun p => match p.1 with
      | .inl g => run h (rounds step n g) p.2
      | .inr a => .ok (some a, p.2) := by
  rw [rounds, run_bind]
  refine congrArg _ (funext fun p => ?_)
  rcases p with ⟨_ | _, _⟩ <;> rfl

theorem run_rounds_eq (measure : σ → Nat)
    (hless : ∀ g s g' s', run h (step g) s = .ok (.inl g', s') → measure s' < measure s) {n m : Nat}
    (hn : measure s < n) (hm : measure s < m) :
    run h (rounds step n g) s = run h (rounds step m g) s := by
  induction n generalizing m g s with
  | zero => exact absurd hn (Nat.not_lt_zero _)
  | succ n ih =>
    obtain ⟨m, rfl⟩ := Nat.exists_eq_add_one_of_ne_zero (Nat.ne_zero_of_lt hm)
    rw [run_rounds_succ, run_rounds_succ]
    refine Outcome.bind_congr_ok fun p hp => ?_
    rcases p with ⟨g' | a, s'⟩
    · have hlt := hless g s g' s' hp
      exact ih (Nat.lt_of_lt_of_le hlt (Nat.le_of_lt_succ hn))
        (Nat.lt_of_lt_of_le hlt (Nat.le_of_lt_succ hm))
    · rfl

/-- What an observer of a loop sees, who is told what to see of each round. -/
def observeRounds (h : Handler I ε σ) (step : γ → RequestTree I ε (γ ⊕ α)) (see : γ → σ → List ω) :
    Nat → γ → σ → List ω
  | 0, _, _ => []
  | n + 1, g, s => see g s ++
    match run h (step g) s with
    | .ok (.inl g, s) => observeRounds h step see n g s
    | _ => []

theorem observeRounds_forall {see : γ → σ → List ω} (P : γ → σ → Prop) (Q : ω → Prop)
    (hsee : ∀ g s, P g s → ∀ o ∈ see g s, Q o)
    (hstep : ∀ g s g' s', P g s → run h (step g) s = .ok (.inl g', s') → P g' s') (n : Nat)
    (hs : P g s) : ∀ o ∈ observeRounds h step see n g s, Q o := by
  induction n generalizing g s with
  | zero => exact fun o ho => absurd ho not_mem_nil
  | succ n ih =>
    intro o ho
    rw [observeRounds, mem_append] at ho
    rcases ho with ho | ho
    · exact hsee g s hs o ho
    · split at ho
      · next g' s' hrun => exact ih (hstep g s g' s' hs hrun) o ho
      · exact absurd ho not_mem_nil

theorem observeRounds_budget {see : γ → σ → List ω} (cost : ω → Nat) (budget : σ → Nat)
    (hpay : ∀ g s, ((see g s).map cost).sum + left budget (run h (step g) s) ≤ budget s) (n : Nat)
    (g : γ) (s : σ) :
    ((observeRounds h step see n g s).map cost).sum + left budget (run h (rounds step n g) s) ≤
      budget s := by
  induction n generalizing g s with
  | zero => exact Nat.le_of_eq (Nat.zero_add _)
  | succ n ih =>
    have hround := hpay g s
    rw [observeRounds, run_rounds_succ, map_append, sum_append]
    cases hrun : run h (step g) s with
    | error e =>
      rw [hrun] at hround
      exact hround
    | ok p =>
      rw [hrun] at hround
      rcases p with ⟨g' | a, s'⟩
      · rw [Nat.add_assoc]
        exact Nat.le_trans (Nat.add_le_add_left (ih g' s') _) hround
      · exact hround

/-! ## Hosts that never stop the guest -/

/-- A host whose refusals are answers: the guest decides what to do with them, and the host
keeps its state whatever the guest's result. -/
abbrev Server (I : HostInterface) (σ : Type) := (r : I.Request) → σ → I.Answer r × σ

def serve (h : Server I σ) : RequestTree I ε α → σ → Except ε α × σ
  | done a, s => (.ok a, s)
  | fail e, s => (.error e, s)
  | ask r next, s => (next (h r s).1).serve h (h r s).2

theorem serve_bind_ok {h : Server I σ} {f : α → RequestTree I ε β} {b : β} :
    serve h (t >>= f) s = (.ok b, s') ↔
      ∃ a u, serve h t s = (.ok a, u) ∧ serve h (f a) u = (.ok b, s') := by
  induction t generalizing s with
  | done a =>
    constructor
    · intro hb
      exact ⟨a, s, rfl, hb⟩
    · rintro ⟨_, _, ha, hb⟩
      cases ha
      exact hb
  | fail e =>
    constructor
    · intro hb
      cases hb
    · rintro ⟨_, _, ha, _⟩
      cases ha
  | ask r next ih => exact ih (h r s).1

@[simp] theorem serve_pure_ok {h : Server I σ} :
    serve h (pure a : RequestTree I ε α) s = (.ok b, s') ↔ a = b ∧ s = s' := by
  change ((Except.ok a : Except ε α), s) = (.ok b, s') ↔ _
  simp

@[simp] theorem serve_lift_ok {h : Server I σ} {x : Except ε α} :
    serve h (lift x) s = (.ok b, s') ↔ x = .ok b ∧ s = s' := by
  cases x <;> simp [lift, serve]

@[simp] theorem serve_request_ok {h : Server I σ} {r : I.Request} {x : I.Answer r} :
    serve h (request r : RequestTree I ε (I.Answer r)) s = (.ok x, s') ↔ h r s = (x, s') := by
  change ((Except.ok (h r s).1 : Except ε (I.Answer r)), (h r s).2) = (.ok x, s') ↔ _
  rw [Prod.ext_iff, Prod.ext_iff]
  simp

/-- What every answer keeps is kept by every guest, however it ends. -/
theorem serve_invariant {h : Server I σ} (P : σ → Prop) (hstep : ∀ r s, P s → P (h r s).2)
    (t : RequestTree I ε α) (hs : P s) : P (serve h t s).2 := by
  induction t generalizing s with
  | done a => exact hs
  | fail e => exact hs
  | ask r next ih => exact ih _ (hstep r s hs)

/-! ## Guests that keep to a protocol -/

/-- When each request may be asked: the phase decides, and every request moves the phase. -/
structure Protocol (I : HostInterface) where
  Phase : Type
  Allowed : Phase → I.Request → Prop
  after : Phase → I.Request → Phase

/-- Whatever the host answers, the guest asks allowed requests only. -/
def Obeys (P : Protocol I) : P.Phase → RequestTree I ε α → Prop
  | _, done _ => True
  | _, fail _ => True
  | p, ask r next => P.Allowed p r ∧ ∀ x, Obeys P (P.after p r) (next x)

/-- A host whose state fits the phase, and keeps fitting it through allowed requests, fits
some phase after the run of a guest that obeys. -/
theorem run_obeys {P : Protocol I} (J : P.Phase → σ → Prop)
    (hstep : ∀ p r s x s', J p s → P.Allowed p r → h r s = .ok (x, s') → J (P.after p r) s')
    {p : P.Phase} (hobeys : Obeys P p t) (hs : J p s) (hrun : run h t s = .ok (a, s')) :
    ∃ q, J q s' := by
  induction t generalizing p s with
  | done b =>
    cases hrun
    exact ⟨p, hs⟩
  | fail e => cases hrun
  | ask r next ih =>
    obtain ⟨x, u, hr, hnext⟩ := run_ask_eq_ok hrun
    exact ih x (hobeys.2 x) (hstep p r s x u hs hobeys.1 hr) hnext

/-- The guest obeys from every phase, so such guests compose. -/
def Free (P : Protocol I) (t : RequestTree I ε α) : Prop := ∀ p, Obeys P p t

section Free
variable {P : Protocol I}

theorem Free.pure (a : α) : Free P (pure a : RequestTree I ε α) := fun _ => trivial

theorem Free.throw (e : ε) : Free P (throw e : RequestTree I ε α) := fun _ => trivial

theorem Free.lift (x : Except ε α) : Free P (lift x : RequestTree I ε α) := by
  intro p
  cases x <;> trivial

theorem Free.request {r : I.Request} (h : ∀ p, P.Allowed p r) :
    Free P (request r : RequestTree I ε (I.Answer r)) := fun p => ⟨h p, fun _ => trivial⟩

theorem Free.bind {t : RequestTree I ε α} {f : α → RequestTree I ε β} (ht : Free P t)
    (hf : ∀ a, Free P (f a)) : Free P (t >>= f) := by
  intro p
  suffices h : ∀ p, Obeys P p t → Obeys P p (RequestTree.bind t f) from h p (ht p)
  clear ht p
  intro p h
  induction t generalizing p with
  | done a => exact hf a p
  | fail e => trivial
  | ask r next ih => exact ⟨h.1, fun x => ih x (P.after p r) (h.2 x)⟩

end Free

end RequestTree
