import Mathlib.Tactic.Common
import Mathlib.Data.List.Basic

/-!
# Readers and the codes they accept

A reader takes a value off the front of a list. `Reads read R` says exactly which codes it
accepts and what it returns for them: the code `R` relates to the value, with everything after
it left unread. Both directions are in the one statement, so a reader that is proved to read
`R` neither rejects a code of `R` nor accepts anything else.

The rules follow the way readers are written: `Reads.bind` for one read after another,
`Reads.require` for a check, `Reads.many` for a counted loop, `Reads.loop` for one that carries a
state, and `Reads.limited` for a reader that may only use the first part of its input.

`Accepts` is the half that a round trip needs: the codes of `R` are accepted, and others may be.
Its rules run a reader on the code in front of it (`Accepts.run_bind`), and `Accepts.loop` runs a
counted loop that carries a state.
-/

/-- Reads a value off the front of a list. -/
abbrev Reader (β : Type) := StateT (List β) Option

namespace Reader

open List

variable {α β γ : Type}

/-- `read` accepts exactly the codes of `R` and leaves what follows them. -/
def Reads (read : Reader β α) (R : α → List β → Prop) : Prop :=
  ∀ l a rest, read l = some (a, rest) ↔ ∃ code, R a code ∧ l = code ++ rest

/-- Stop unless the condition holds. -/
def require (c : Prop) [Decidable c] : Reader β Unit := fun l => if c then some ((), l) else none

/-- A value that was computed from what has been read. -/
def ofOption (o : Option α) : Reader β α := fun l => o.map fun a => (a, l)

/-- `n` values in a row. -/
def many (read : Reader β α) : Nat → Reader β (List α)
  | 0 => pure []
  | n + 1 => do
      let a ← read
      let rest ← many read n
      return a :: rest

/-- A counted loop that carries a state. -/
def loop {σ : Type} (step : σ → Reader β σ) : Nat → σ → Reader β σ
  | 0, s => pure s
  | n + 1, s => step s >>= loop step n

/-- Read from the first `limit` positions of the input only. -/
def limited (limit : Nat) (read : Reader β α) : Reader β α := fun l =>
  (read (l.take limit)).map fun p => (p.1, p.2 ++ l.drop limit)

/-- The whole input is one code. -/
def all (read : Reader β α) (l : List β) : Option α :=
  match read l with
  | some (a, []) => some a
  | _ => none

/-- The codes of a list's members, one after another. -/
def Sequence (R : α → List β → Prop) : List α → List β → Prop
  | [], code => code = []
  | a :: as, code => ∃ first rest, R a first ∧ Sequence R as rest ∧ code = first ++ rest

/-- Every value is admitted after the ones before it. -/
def Admits (P : List α → α → Prop) : List α → List α → Prop
  | _, [] => True
  | done, a :: as => P done a ∧ Admits P (done ++ [a]) as

namespace Admits

variable {P : List α → α → Prop} {done as : List α}

theorem of_forall (h : ∀ before a after, as = before ++ a :: after → P (done ++ before) a) :
    Admits P done as := by
  induction as generalizing done with
  | nil => trivial
  | cons a as ih =>
    refine ⟨?_, ih fun before b after hsplit => ?_⟩
    · have hfirst := h [] a as rfl
      rwa [append_nil] at hfirst
    · have hnext := h (a :: before) b after (by rw [hsplit]; rfl)
      rwa [append_assoc, singleton_append]

theorem invariant {I : List α → Prop} (hI : ∀ done a, I done → P done a → I (done ++ [a]))
    (h : Admits P done as) (hdone : I done) : I (done ++ as) := by
  induction as generalizing done with
  | nil => rwa [append_nil]
  | cons a as ih =>
    have hnext := ih h.2 (hI done a hdone h.1)
    rwa [append_assoc, singleton_append] at hnext

end Admits

namespace Reads

variable {read : Reader β α} {R S : α → List β → Prop}

theorem congr (h : Reads read R) (hRS : ∀ a code, R a code ↔ S a code) : Reads read S := by
  intro l a rest
  simp only [h l a rest, hRS]

theorem pure (a : α) : Reads (pure a : Reader β α) (fun b code => b = a ∧ code = []) := by
  intro l b rest
  change some (a, l) = some (b, rest) ↔ _
  simp [eq_comm]

variable {next : α → Reader β γ} {T : α → γ → List β → Prop}

theorem bind (h : Reads read R) (hnext : ∀ a, Reads (next a) (T a)) :
    Reads (read >>= next) (fun c code =>
      ∃ a first, R a first ∧ ∃ rest, T a c rest ∧ code = first ++ rest) := by
  intro l c rest
  change (read l).bind (fun p => next p.1 p.2) = some (c, rest) ↔ _
  rw [Option.bind_eq_some_iff]
  constructor
  · rintro ⟨⟨a, l'⟩, hread, hc⟩
    obtain ⟨first, hfirst, rfl⟩ := (h l a l').mp hread
    obtain ⟨second, hsecond, rfl⟩ := (hnext a l' c rest).mp hc
    exact ⟨first ++ second, ⟨a, first, hfirst, second, hsecond, rfl⟩, (append_assoc ..).symm⟩
  · rintro ⟨_, ⟨a, first, hfirst, second, hsecond, rfl⟩, rfl⟩
    refine ⟨(a, second ++ rest), (h _ a _).mpr ⟨first, hfirst, append_assoc ..⟩, ?_⟩
    exact (hnext a _ c rest).mpr ⟨second, hsecond, rfl⟩

/-- The last field of a record. -/
theorem map (h : Reads read R) (f : α → γ) :
    Reads (read >>= fun a => Pure.pure (f a)) (fun c code => ∃ a, c = f a ∧ R a code) := by
  refine (h.bind fun a => Reads.pure (f a)).congr fun c code => ?_
  constructor
  · rintro ⟨a, first, ha, _, ⟨rfl, rfl⟩, rfl⟩
    exact ⟨a, rfl, by rwa [append_nil]⟩
  · rintro ⟨a, rfl, ha⟩
    exact ⟨a, code, ha, [], ⟨rfl, rfl⟩, (append_nil _).symm⟩

theorem require (c : Prop) [Decidable c] :
    Reads (Reader.require c : Reader β Unit) (fun _ code => c ∧ code = []) := by
  intro l a rest
  by_cases hc : c
  · simp [Reader.require, hc, eq_comm]
  · simp [Reader.require, hc]

theorem failure : Reads (failure : Reader β α) (fun _ _ => False) := by
  intro l a rest
  change none = some (a, rest) ↔ _
  simp

theorem ite {c : Prop} [Decidable c] {other : Reader β α} (h : Reads read R)
    (hother : Reads other S) :
    Reads (if c then read else other) (fun a code => if c then R a code else S a code) := by
  split
  · exact h
  · exact hother

theorem field {encode : α → List β} (h : Reads read (fun a code => code = encode a))
    (hnext : ∀ a, Reads (next a) (T a)) :
    Reads (read >>= next) (fun c code => ∃ a rest, T a c rest ∧ code = encode a ++ rest) := by
  refine (h.bind hnext).congr fun c code => ?_
  simp only [exists_eq_left]

theorem check {c : α → Prop} [DecidablePred c] (h : Reads read R)
    (hnext : ∀ a, Reads (next a) (T a)) :
    Reads (read >>= fun a => Reader.require (c a) >>= fun _ => next a) (fun v code =>
      ∃ a first, (R a first ∧ c a) ∧ ∃ rest, T a v rest ∧ code = first ++ rest) := by
  refine (h.bind fun a => (Reads.require (c a)).bind fun _ => hnext a).congr fun v code => ?_
  constructor
  · rintro ⟨a, first, hfirst, rest, ⟨_, _, ⟨hc, rfl⟩, rest, hrest, rfl⟩, rfl⟩
    exact ⟨a, first, ⟨hfirst, hc⟩, rest, hrest, rfl⟩
  · rintro ⟨a, first, ⟨hfirst, hc⟩, rest, hrest, rfl⟩
    exact ⟨a, first, hfirst, rest, ⟨(), [], ⟨hc, rfl⟩, rest, hrest, rfl⟩, rfl⟩

/-- A counted loop reads the codes of that many values. -/
theorem many (h : Reads read R) (n : Nat) :
    Reads (Reader.many read n) (fun as code => as.length = n ∧ Sequence R as code) := by
  induction n with
  | zero =>
    refine (Reads.pure []).congr fun as code => ?_
    constructor
    · rintro ⟨rfl, rfl⟩
      exact ⟨rfl, rfl⟩
    · rintro ⟨hlength, hcode⟩
      obtain rfl := eq_nil_of_length_eq_zero hlength
      exact ⟨rfl, hcode⟩
  | succ n ih =>
    refine (h.bind fun a => ih.bind fun rest => Reads.pure (a :: rest)).congr fun as code => ?_
    constructor
    · rintro ⟨a, first, ha, _, ⟨as, rest, ⟨rfl, has⟩, _, ⟨rfl, rfl⟩, rfl⟩, rfl⟩
      exact ⟨rfl, first, rest, ha, has, by rw [append_nil]⟩
    · rintro ⟨hlength, hcode⟩
      obtain ⟨a, as, rfl⟩ := exists_cons_of_length_eq_add_one hlength
      obtain ⟨first, rest, ha, has, rfl⟩ := hcode
      exact ⟨a, first, ha, rest, ⟨as, rest, ⟨Nat.succ.inj hlength, has⟩, [], ⟨rfl, rfl⟩,
        (append_nil _).symm⟩, rfl⟩

/-- A loop whose state is a function of the values read so far, where a value may depend on the ones
before it. -/
theorem loop {σ : Type} {step : σ → Reader β σ} {state : List α → σ} {P : List α → α → Prop}
    (h : ∀ done, Reads (step (state done)) (fun s code => ∃ a, (R a code ∧ P done a) ∧
      s = state (done ++ [a])))
    (n : Nat) (done : List α) :
    Reads (Reader.loop step n (state done)) (fun s code =>
      ∃ as, as.length = n ∧ Sequence R as code ∧ Admits P done as ∧ s = state (done ++ as)) := by
  induction n generalizing done with
  | zero =>
    refine (Reads.pure (state done)).congr fun s code => ?_
    constructor
    · rintro ⟨rfl, rfl⟩
      exact ⟨[], rfl, rfl, trivial, by rw [append_nil]⟩
    · rintro ⟨as, hlength, hcode, _, rfl⟩
      obtain rfl := eq_nil_of_length_eq_zero hlength
      exact ⟨by rw [append_nil], hcode⟩
  | succ n ih =>
    intro l s rest
    change ((step (state done)) l).bind (fun p => Reader.loop step n p.1 p.2) = some (s, rest) ↔ _
    rw [Option.bind_eq_some_iff]
    constructor
    · rintro ⟨⟨_, _⟩, hstep, hloop⟩
      obtain ⟨first, ⟨a, ⟨ha, hP⟩, rfl⟩, rfl⟩ := (h done _ _ _).mp hstep
      obtain ⟨code, ⟨as, hlength, hcode, hadmits, rfl⟩, rfl⟩ := (ih (done ++ [a]) _ _ _).mp hloop
      refine ⟨first ++ code, ⟨a :: as, congrArg (· + 1) hlength, ⟨first, code, ha, hcode, rfl⟩,
        ⟨hP, hadmits⟩, ?_⟩, ?_⟩
      · rw [append_assoc, singleton_append]
      · rw [append_assoc]
    · rintro ⟨_, ⟨as, hlength, hcode, hadmits, rfl⟩, rfl⟩
      obtain ⟨a, as, rfl⟩ := exists_cons_of_length_eq_add_one hlength
      obtain ⟨first, code, ha, hcode, rfl⟩ := hcode
      refine ⟨(state (done ++ [a]), code ++ rest),
        (h done _ _ _).mpr ⟨first, ⟨a, ⟨ha, hadmits.1⟩, rfl⟩, ?_⟩, ?_⟩
      · rw [append_assoc]
      · refine (ih (done ++ [a]) _ _ _).mpr ⟨code,
          ⟨as, Nat.succ.inj hlength, hcode, hadmits.2, ?_⟩, rfl⟩
        rw [append_assoc, singleton_append]

/-- A limited reader accepts the codes that fit into the limit. -/
theorem limited (h : Reads read R) (limit : Nat) :
    Reads (Reader.limited limit read) (fun a code => R a code ∧ code.length ≤ limit) := by
  intro l a rest
  change (read (l.take limit)).map _ = some (a, rest) ↔ _
  rw [Option.map_eq_some_iff]
  constructor
  · rintro ⟨⟨b, inner⟩, hread, heq⟩
    cases heq
    obtain ⟨code, hcode, htake⟩ := (h _ b inner).mp hread
    refine ⟨code, ⟨hcode, ?_⟩, ?_⟩
    · have hlength := congrArg List.length htake
      rw [length_take, length_append] at hlength
      omega
    · rw [← append_assoc, ← htake, take_append_drop]
  · rintro ⟨code, ⟨hcode, hfits⟩, rfl⟩
    refine ⟨(a, rest.take (limit - code.length)), (h _ a _).mpr ⟨code, hcode, ?_⟩, ?_⟩
    · rw [take_append, take_of_length_le hfits]
    · rw [drop_append, drop_of_length_le hfits, nil_append,
        take_append_drop]

theorem all (h : Reads read R) {l : List β} {a : α} : Reader.all read l = some a ↔ R a l := by
  have hread := h l a []
  simp only [append_nil, exists_eq_right'] at hread
  rw [← hread]
  unfold Reader.all
  split
  · rename_i b hb
    rw [hb]
    simp
  · rename_i hne
    constructor
    · nofun
    · intro hread
      exact absurd hread (hne a)

theorem unique (h : Reads read R) {a b : α} {code : List β} (ha : R a code) (hb : R b code) :
    a = b := by
  have hread := (h code a []).mpr ⟨code, ha, (append_nil _).symm⟩
  rw [(h code b []).mpr ⟨code, hb, (append_nil _).symm⟩] at hread
  exact (Prod.mk.inj (Option.some.inj hread)).1.symm

end Reads

/-! ## Codes of lists -/

section Sequences

variable {R S : α → List β → Prop}

variable {as : List α} {code : List β}

theorem sequence_congr (h : ∀ a ∈ as, ∀ code, R a code ↔ S a code) :
    Sequence R as code ↔ Sequence S as code := by
  induction as generalizing code with
  | nil => rfl
  | cons a as ih =>
    simp only [Sequence, h a mem_cons_self, ih fun b hb => h b (mem_cons_of_mem _ hb)]

theorem sequence_total {encode : α → List β} :
    Sequence (fun a code => code = encode a) as code ↔ code = (as.map encode).flatten := by
  induction as generalizing code with
  | nil => rfl
  | cons a as ih => simp [Sequence, ih]

theorem sequence_mapM {encode : α → Option (List β)} :
    Sequence (fun a code => encode a = some code) as code ↔
      ∃ parts, as.mapM encode = some parts ∧ code = parts.flatten := by
  induction as generalizing code with
  | nil => simp [Sequence]
  | cons a as ih =>
    simp only [Sequence, ih, mapM_cons, Option.bind_eq_bind, Option.bind_eq_some_iff,
      Option.pure_def, Option.some.injEq]
    constructor
    · rintro ⟨first, _, ha, ⟨parts, hparts, rfl⟩, rfl⟩
      exact ⟨first :: parts, ⟨first, ha, parts, hparts, rfl⟩, rfl⟩
    · rintro ⟨_, ⟨first, ha, parts, hparts, rfl⟩, rfl⟩
      exact ⟨first, parts.flatten, ha, ⟨parts, hparts, rfl⟩, rfl⟩

theorem Sequence.exists (h : ∀ a ∈ as, ∃ code, R a code) : ∃ code, Sequence R as code := by
  induction as with
  | nil => exact ⟨[], rfl⟩
  | cons a as ih =>
    obtain ⟨⟨first, hfirst⟩, has⟩ := forall_mem_cons.mp h
    obtain ⟨rest, hrest⟩ := ih has
    exact ⟨first ++ rest, first, rest, hfirst, hrest, rfl⟩

theorem Sequence.and {P : α → Prop} (h : Sequence R as code) (hall : ∀ a ∈ as, P a) :
    Sequence (fun a code => R a code ∧ P a) as code := by
  induction as generalizing code with
  | nil => exact h
  | cons a as ih =>
    obtain ⟨first, rest, ha, has, rfl⟩ := h
    obtain ⟨hP, hall⟩ := forall_mem_cons.mp hall
    exact ⟨first, rest, ⟨ha, hP⟩, ih has hall, rfl⟩

theorem sequence_and {P : α → List β → Prop} :
    Sequence (fun a code => R a code ∧ P a code) as code →
      Sequence R as code ∧ ∀ a ∈ as, ∃ part, R a part ∧ P a part := by
  induction as generalizing code with
  | nil => exact fun h => ⟨h, nofun⟩
  | cons a as ih =>
    rintro ⟨first, rest, ⟨ha, hP⟩, has, rfl⟩
    obtain ⟨has, hall⟩ := ih has
    exact ⟨⟨first, rest, ha, has, rfl⟩, forall_mem_cons.mpr ⟨⟨first, ha, hP⟩, hall⟩⟩

end Sequences

/-! ## Accepted codes -/

/-- `read` accepts the codes of `R`, whatever else it accepts. -/
def Accepts (read : Reader β α) (R : α → List β → Prop) : Prop :=
  ∀ a code rest, R a code → read (code ++ rest) = some (a, rest)

theorem Reads.accepts {read : Reader β α} {R : α → List β → Prop} (h : Reads read R) :
    Accepts read R :=
  fun a code rest hcode => (h _ a rest).mpr ⟨code, hcode, rfl⟩

theorem run_require {c : Prop} [Decidable c] (hc : c) (next : Unit → Reader β γ) (l : List β) :
    (require c >>= next) l = next () l := by
  change (if c then some ((), l) else none).bind (fun p => next p.1 p.2) = _
  rw [if_pos hc]
  rfl

theorem run_ofOption {o : Option α} {a : α} (ha : o = some a) (next : α → Reader β γ) (l : List β) :
    (ofOption o >>= next) l = next a l := by
  rw [ha]
  rfl

namespace Accepts

variable {read : Reader β α} {R S : α → List β → Prop}

variable {code : List β} {a : α} {as : List α}

/-- The code in front is read, the rest is left to what follows. -/
theorem run_bind (h : Accepts read R) (hcode : R a code) (next : α → Reader β γ)
    (rest : List β) : (read >>= next) (code ++ rest) = next a rest := by
  change (read (code ++ rest)).bind (fun p => next p.1 p.2) = _
  rw [h a code rest hcode]
  rfl

theorem imp (h : Accepts read R) (hSR : ∀ a code, S a code → R a code) : Accepts read S :=
  fun a code rest hcode => h a code rest (hSR a code hcode)

theorem all (h : Accepts read R) (hcode : R a code) :
    Reader.all read code = some a := by
  have hread := h a code [] hcode
  rw [append_nil] at hread
  rw [Reader.all, hread]

theorem many (h : Accepts read R) (hcode : Sequence R as code) (rest : List β) :
    Reader.many read as.length (code ++ rest) = some (as, rest) := by
  induction as generalizing code with
  | nil =>
    cases hcode
    rfl
  | cons a as ih =>
    obtain ⟨first, last, ha, has, rfl⟩ := hcode
    rw [length_cons, Reader.many, append_assoc, h.run_bind ha]
    change (Reader.many read as.length (last ++ rest)).bind _ = _
    rw [ih has]
    rfl

/-- A loop whose state is a function of the values read so far. -/
theorem loop {σ : Type} {step : σ → Reader β σ} (state : List α → σ) (hcode : Sequence R as code)
    (hstep : ∀ done a todo, as = done ++ a :: todo → ∀ first rest, R a first →
      step (state done) (first ++ rest) = some (state (done ++ [a]), rest)) (rest : List β) :
    Reader.loop step as.length (state []) (code ++ rest) = some (state as, rest) := by
  -- from every split point on
  suffices h : ∀ done todo code, as = done ++ todo → Sequence R todo code →
      Reader.loop step todo.length (state done) (code ++ rest) = some (state as, rest) from
    h [] as code rfl hcode
  intro done todo
  induction todo generalizing done with
  | nil =>
    intro code has hcode
    cases hcode
    rw [has, append_nil]
    rfl
  | cons a todo ih =>
    rintro _ has ⟨first, last, ha, htodo, rfl⟩
    rw [length_cons, Reader.loop, append_assoc]
    change (step (state done) (first ++ (last ++ rest))).bind _ = _
    rw [hstep done a todo has first _ ha]
    exact ih (done ++ [a]) last (by rw [has, append_assoc]; rfl) htodo

end Accepts

end Reader
