import Mathlib.Tactic.Common

/-!
# Fallible computations

Rules for reading a successful `Except` computation backwards: a successful bind has a
successful first part (`bind_eq_ok`), a passed guard has a false failure condition
(`rejectIf_eq_ok`), and a loop that succeeds keeps whatever its body keeps
(`foldlM_invariant`).
-/

universe u v w

namespace Outcome

open List

variable {ε : Type u} {α : Type v} {β : Type w}

/-- Fail with `e` when the condition holds. -/
def rejectIf (c : Prop) [Decidable c] (e : ε) : Except ε Unit := if c then .error e else .ok ()

/-- A missing value is an error. -/
def okOr (o : Option α) (e : ε) : Except ε α :=
  match o with
  | some a => .ok a
  | none => .error e

/-- Replace the error, whatever it was. -/
def orError {ε' : Type u} (x : Except ε α) (e : ε') : Except ε' α :=
  match x with
  | .ok a => .ok a
  | .error _ => .error e

variable {x : Except ε α} {e : ε} {ε' : Type u} {a : α}

variable {c : Prop} {o : Option α} {e' : ε} {f : ε → ε'}

@[simp] theorem rejectIf_eq_ok [Decidable c] {u : Unit} : rejectIf c e = .ok u ↔ ¬ c := by
  unfold rejectIf
  split <;> simp_all

@[simp] theorem okOr_eq_ok : okOr o e = .ok a ↔ o = some a := by
  cases o <;> simp [okOr]

theorem rejectIf_eq_error [Decidable c] : rejectIf c e = .error e' ↔ c ∧ e = e' := by
  unfold rejectIf
  split <;> simp_all

theorem okOr_eq_error : okOr o e = .error e' ↔ o = none ∧ e = e' := by
  cases o <;> simp [okOr]

@[simp] theorem orError_eq_ok {e : ε'} : orError x e = .ok a ↔ x = .ok a := by
  cases x <;> simp [orError]

theorem orError_eq_error {e e' : ε'} : orError x e = .error e' ↔ (∃ e, x = .error e) ∧ e = e' := by
  cases x <;> simp [orError]

@[simp] theorem mapError_eq_ok : x.mapError f = .ok a ↔ x = .ok a := by
  cases x <;> simp [Except.mapError]

theorem mapError_eq_error {e' : ε'} : x.mapError f = .error e' ↔ ∃ e, x = .error e ∧ f e = e' := by
  cases x <;> simp [Except.mapError]

theorem exists_of_isOk (h : x.isOk = true) : ∃ a, x = .ok a := by
  cases x with
  | ok a => exact ⟨a, rfl⟩
  | error e => cases h

theorem exists_of_any {p : α → Bool} (h : x.toOption.any p = true) :
    ∃ a, x = .ok a ∧ p a = true := by
  cases x with
  | error e => cases h
  | ok a => exact ⟨a, rfl, h⟩

section Bind

variable {α β : Type v}

variable {x : Except ε α} {f : α → Except ε β} {b : β}

theorem bind_eq_ok : x >>= f = .ok b ↔ ∃ a, x = .ok a ∧ f a = .ok b := by
  cases x <;> simp [bind, Except.bind]

theorem bind_eq_error {e : ε} :
    x >>= f = .error e ↔ x = .error e ∨ ∃ a, x = .ok a ∧ f a = .error e := by
  cases x <;> simp [bind, Except.bind]

theorem bind_congr_ok {g : α → Except ε β} (h : ∀ a, x = .ok a → f a = g a) :
    x >>= f = x >>= g := by
  cases x with
  | error e => rfl
  | ok a => exact h a rfl

theorem exceptMap_bind {γ : Type v} (x : Except ε α) (f : α → Except ε β) (g : β → γ) :
    (x >>= f).map g = x >>= fun a => (f a).map g := by
  cases x <;> rfl

theorem mapError_bind {ε' : Type u} (x : Except ε α) (f : α → Except ε β) (g : ε → ε') :
    (x >>= f).mapError g = x.mapError g >>= fun a => (f a).mapError g := by
  cases x <;> rfl

@[simp] theorem ok_bind (a : α) (f : α → Except ε β) : (Except.ok a >>= f) = f a := rfl

@[simp] theorem error_bind (e : ε) (f : α → Except ε β) : (Except.error e >>= f) = .error e := rfl

@[simp] theorem pure_eq_ok (a : α) : (pure a : Except ε α) = .ok a := rfl

theorem return_eq_ok {a b : α} : (pure a : Except ε α) = .ok b ↔ a = b := by
  rw [pure_eq_ok, Except.ok.injEq]

@[simp] theorem throw_eq_error (e : ε) : (throw e : Except ε α) = .error e := rfl

/-! The same rules for `Option` in do notation. -/

theorem bind_eq_some {x : Option α} {f : α → Option β} :
    x >>= f = some b ↔ ∃ a, x = some a ∧ f a = some b :=
  Option.bind_eq_some_iff

theorem return_eq_some {a b : α} : (pure a : Option α) = some b ↔ a = b := Option.some_inj

theorem some_bind (a : α) (f : α → Option β) : (some a >>= f) = f a := rfl

theorem map_eq_ok {f : α → β} : f <$> x = .ok b ↔ ∃ a, x = .ok a ∧ f a = b := by
  cases x <;> simp [Functor.map, Except.map]

@[simp] theorem exceptMap_eq_ok {f : α → β} : x.map f = .ok b ↔ ∃ a, x = .ok a ∧ f a = b := by
  cases x <;> simp [Except.map]

end Bind

section Loops

variable {σ α : Type v}

variable {l : List α} {f : σ → α → Except ε σ} {s : σ}

theorem exists_of_foldlM_eq_error {e : ε} (h : List.foldlM f s l = .error e) :
    ∃ s, ∃ a ∈ l, f s a = .error e := by
  induction l generalizing s with
  | nil => cases h
  | cons a l ih =>
    rw [foldlM_cons, bind_eq_error] at h
    rcases h with ha | ⟨s', -, h⟩
    · exact ⟨s, a, mem_cons_self, ha⟩
    · obtain ⟨s, a', ha', hf⟩ := ih h
      exact ⟨s, a', mem_cons_of_mem _ ha', hf⟩

/-- What every iteration keeps holds at the end of a successful loop. -/
theorem foldlM_invariant (I : σ → Prop) (hstep : ∀ s s', ∀ a ∈ l, I s → f s a = .ok s' → I s')
    {s' : σ} (hs : I s) (h : List.foldlM f s l = .ok s') : I s' := by
  induction l generalizing s with
  | nil =>
    rw [foldlM_nil] at h
    cases h
    exact hs
  | cons a l ih =>
    rw [foldlM_cons, bind_eq_ok] at h
    obtain ⟨t, ht, hrest⟩ := h
    exact ih (fun s s' b hb => hstep s s' b (mem_cons_of_mem _ hb))
      (hstep s t a mem_cons_self hs ht) hrest

theorem foldlM_along (I : List α → σ → Prop)
    (hstep : ∀ done a rest s s', l = done ++ a :: rest → I done s → f s a = .ok s' →
      I (done ++ [a]) s')
    {s' : σ} (hs : I [] s) (h : List.foldlM f s l = .ok s') : I l s' := by
  suffices hall : ∀ rest done s, l = done ++ rest → I done s → List.foldlM f s rest = .ok s' →
      I l s' from
    hall l [] s rfl hs h
  intro rest
  induction rest with
  | nil =>
    intro done s hl hs h
    cases h
    rw [hl, append_nil]
    exact hs
  | cons a rest ih =>
    intro done s hl hs h
    rw [foldlM_cons, bind_eq_ok] at h
    obtain ⟨t, ht, hrest⟩ := h
    exact ih (done ++ [a]) t (by rw [hl, append_assoc]; rfl) (hstep done a rest s t hl hs ht) hrest

/-- A fold that succeeds has taken every step. -/
theorem forall_of_foldlM {P : α → Prop} (hstep : ∀ s s' a, f s a = .ok s' → P a) {s' : σ}
    (h : List.foldlM f s l = .ok s') : ∀ a ∈ l, P a := by
  refine foldlM_along (fun done _ => ∀ a ∈ done, P a) ?_ (by simp) h
  intro done a rest s s' _ hdone ha a' ha'
  rcases mem_append.mp ha' with hmem | hmem
  · exact hdone a' hmem
  · rw [mem_singleton.mp hmem]
    exact hstep s s' a ha

theorem foldlM_hom {τ : Type v} {g : τ → α → Except ε τ} (F : σ → τ)
    (hstep : ∀ s a, g (F s) a = (f s a).map F) (l : List α) (s : σ) :
    List.foldlM g (F s) l = (List.foldlM f s l).map F := by
  induction l generalizing s with
  | nil => rfl
  | cons a l ih =>
    rw [foldlM_cons, foldlM_cons, hstep]
    cases f s a with
    | error e => rfl
    | ok s' => exact ih s'

theorem foldlM_congr {g : σ → α → Except ε σ} (h : ∀ a ∈ l, ∀ s, f s a = g s a) (s : σ) :
    List.foldlM f s l = List.foldlM g s l := by
  induction l generalizing s with
  | nil => rfl
  | cons a l ih =>
    rw [foldlM_cons, foldlM_cons, h a mem_cons_self]
    exact congrArg _ (funext (ih fun b hb => h b (mem_cons_of_mem _ hb)))

theorem forM_eq_ok {ε α : Type} {f : α → Except ε Unit} {l : List α} :
    l.forM f = .ok () ↔ ∀ a ∈ l, f a = .ok () := by
  induction l with
  | nil => simp
  | cons a l ih =>
    rw [forall_mem_cons, ← ih]
    change (f a >>= fun _ => l.forM f) = .ok () ↔ _
    rw [bind_eq_ok]
    constructor
    · rintro ⟨⟨⟩, ha, hl⟩
      exact ⟨ha, hl⟩
    · rintro ⟨ha, hl⟩
      exact ⟨(), ha, hl⟩

/-- A loop that collects results succeeds with the results of its steps. -/
theorem mapM_eq_ok_iff {β : Type v} {f : α → Except ε β} {r : List β} :
    l.mapM f = .ok r ↔ l.map f = r.map .ok := by
  induction l generalizing r with
  | nil => cases r <;> simp
  | cons a l ih =>
    rw [mapM_cons]
    simp only [bind_eq_ok, ih, map_cons, pure_eq_ok, Except.ok.injEq]
    constructor
    · rintro ⟨b, hb, r, hr, rfl⟩
      rw [hb, hr, map_cons]
    · intro h
      cases r with
      | nil => cases h
      | cons b r =>
        obtain ⟨hb, hr⟩ := List.cons.inj h
        exact ⟨b, hb, r, hr, rfl⟩

theorem mapM_eq_ok {β : Type v} {f : α → Except ε β} {g : α → β} (h : ∀ a ∈ l, f a = .ok (g a)) :
    l.mapM f = .ok (l.map g) := by
  rw [mapM_eq_ok_iff, map_map]
  exact map_congr_left h

theorem mapM_consecutive {ε α β : Type} {read : Nat → Except ε β} {g : α → β} {l : List α}
    {start : Nat} (h : ∀ i (hi : i < l.length), read (start + i) = .ok (g l[i])) :
    (List.range l.length).mapM (fun i => read (start + i)) = .ok (l.map g) := by
  refine mapM_eq_ok_iff.mpr (ext_getElem (by simp) fun i hi _ => ?_)
  simpa using h i (by simpa using hi)

theorem mapM_window {ε α β : Type} {read : Nat → Except ε β} {g : α → β} {l : List α} {n : Nat}
    (hn : n ≤ l.length) (h : ∀ i (hi : i < l.length), l.length - n ≤ i → read i = .ok (g l[i])) :
    (List.range n).mapM (fun i => read (l.length - n + i)) =
      .ok ((l.drop (l.length - n)).map g) := by
  have hlength : (l.drop (l.length - n)).length = n := by rw [length_drop]; omega
  have hdrop : (List.range (l.drop (l.length - n)).length).mapM (fun i => read (l.length - n + i)) =
      .ok ((l.drop (l.length - n)).map g) := by
    refine mapM_consecutive fun i hi => ?_
    rw [getElem_drop]
    exact h _ _ (Nat.le_add_right _ _)
  rwa [hlength] at hdrop

theorem mem_of_mapM {β : Type v} {f : α → Except ε β} {r : List β} (h : l.mapM f = .ok r) {b : β}
    (hb : b ∈ r) : ∃ a ∈ l, f a = .ok b := by
  have hmem : Except.ok b ∈ r.map (Except.ok (ε := ε)) := mem_map_of_mem hb
  rwa [← mapM_eq_ok_iff.mp h, mem_map] at hmem

theorem length_of_mapM {β : Type v} {f : α → Except ε β} {r : List β} (h : l.mapM f = .ok r) :
    r.length = l.length := by
  simpa using (congrArg List.length (mapM_eq_ok_iff.mp h)).symm

theorem getElem?_of_mapM {β : Type v} {f : α → Except ε β} {r : List β} (h : l.mapM f = .ok r)
    {i : Nat} {a : α} (ha : l[i]? = some a) : ∃ b, r[i]? = some b ∧ f a = .ok b := by
  have hget := congrArg (fun l => l[i]?) (mapM_eq_ok_iff.mp h)
  simp only [getElem?_map, ha, Option.map_some] at hget
  obtain ⟨b, hb, hf⟩ := Option.map_eq_some_iff.mp hget.symm
  exact ⟨b, hb, hf.symm⟩

theorem exists_of_mapM_eq_error {β : Type v} {f : α → Except ε β} {e : ε}
    (h : l.mapM f = .error e) : ∃ a ∈ l, f a = .error e := by
  induction l with
  | nil => cases h
  | cons a l ih =>
    rw [mapM_cons, bind_eq_error] at h
    rcases h with ha | ⟨_, _, h⟩
    · exact ⟨a, mem_cons_self, ha⟩
    · rcases bind_eq_error.mp h with hl | ⟨_, _, h⟩
      · obtain ⟨a', ha', hf⟩ := ih hl
        exact ⟨a', mem_cons_of_mem _ ha', hf⟩
      · cases h

theorem exists_mem_of_mapM {β : Type v} {f : α → Except ε β} {r : List β} (h : l.mapM f = .ok r)
    {a : α} (ha : a ∈ l) : ∃ b ∈ r, f a = .ok b := by
  obtain ⟨i, hi⟩ := mem_iff_getElem?.mp ha
  obtain ⟨b, hb, hf⟩ := getElem?_of_mapM h hi
  exact ⟨b, mem_of_getElem? hb, hf⟩

end Loops

end Outcome

/-! ## Changes in place -/

/-- A method that changes its receiver in place and may fail part-way: the receiver is
returned in either case. -/
def InPlace (σ ε α : Type) := σ → Except ε α × σ

namespace InPlace

variable {σ ε α β : Type}

instance : Monad (InPlace σ ε) where
  pure a := fun s => (.ok a, s)
  bind x f := fun s =>
    match x s with
    | (.ok a, s') => f a s'
    | (.error e, s') => (.error e, s')

/-- Read the receiver. -/
def read : InPlace σ ε σ := fun s => (.ok s, s)

/-- Change the receiver. -/
def update (f : σ → σ) : InPlace σ ε Unit := fun s => (.ok (), f s)

/-- A check that does not touch the receiver. -/
def check (x : Except ε α) : InPlace σ ε α := fun s => (x, s)

/-- Run on a staging copy that a failure discards. -/
def staged (x : InPlace σ ε α) (s : σ) : Except ε (α × σ) :=
  match x s with
  | (.ok a, s') => .ok (a, s')
  | (.error e, _) => .error e

/-- A method that changes its receiver only when it succeeds. -/
def atomic (f : σ → Except ε (α × σ)) : InPlace σ ε α := fun s =>
  match f s with
  | .ok (a, s') => (.ok a, s')
  | .error e => (.error e, s)

theorem staged_atomic (f : σ → Except ε (α × σ)) (s : σ) : (atomic f).staged s = f s := by
  unfold staged atomic
  rcases f s with _ | ⟨_, _⟩ <;> rfl

variable {s t : σ} {x : InPlace σ ε α} {a : α} {f : α → InPlace σ ε β}

theorem atomic_error {f : σ → Except ε (α × σ)} {s' : σ} {e : ε} (h : atomic f s = (.error e, s')) :
    s' = s := by
  unfold atomic at h
  split at h
  · cases h
  · cases h
    rfl

theorem staged_bind (x : InPlace σ ε α) (f : α → InPlace σ ε β) (s : σ) :
    (x >>= f).staged s = x.staged s >>= fun p => (f p.1).staged p.2 := by
  simp only [staged, bind, Except.bind]
  rcases x s with ⟨_ | _, _⟩ <;> rfl

theorem staged_read_bind (f : σ → InPlace σ ε β) (s : σ) :
    (read >>= f).staged s = (f s).staged s := rfl

theorem staged_update_bind (c : σ → σ) (f : Unit → InPlace σ ε β) (s : σ) :
    (update c >>= f).staged s = (f ()).staged (c s) := rfl

theorem staged_check_bind (x : Except ε α) (f : α → InPlace σ ε β) (s : σ) :
    (check x >>= f).staged s = x >>= fun a => (f a).staged s := by
  cases x <;> rfl

@[simp] theorem staged_eq_ok : x.staged s = .ok (a, t) ↔ x s = (.ok a, t) := by
  unfold staged
  rcases x s with ⟨_ | _, _⟩ <;> simp

theorem bind_ok {b : β} :
    (x >>= f) s = (.ok b, t) ↔ ∃ a u, x s = (.ok a, u) ∧ f a u = (.ok b, t) := by
  simp only [bind]
  cases h : x s with
  | mk r u => cases r <;> simp

theorem bind_of_ok (h : x s = (.ok a, t)) : (x >>= f) s = f a t := by
  simp only [bind, h]

theorem bind_of_error {e : ε} (h : x s = (.error e, t)) : (x >>= f) s = (.error e, t) := by
  simp only [bind, h]

@[simp] theorem pure_ok {b : α} : (pure a : InPlace σ ε α) s = (.ok b, t) ↔ a = b ∧ s = t := by
  simp [pure]

@[simp] theorem read_ok {r : σ} : (read : InPlace σ ε σ) s = (.ok r, t) ↔ s = r ∧ s = t := by
  simp [read]

@[simp] theorem update_ok {f : σ → σ} {u : Unit} :
    (update f : InPlace σ ε Unit) s = (.ok u, t) ↔ f s = t := by
  simp [update]

@[simp] theorem check_ok {x : Except ε α} :
    (check x : InPlace σ ε α) s = (.ok a, t) ↔ x = .ok a ∧ s = t := by
  simp [check]

/-! ## What holds of the receiver, however a run ends -/

/-- The receiver ends in `P`, also after an error. -/
def Ends (P : σ → Prop) (r : Except ε α × σ) : Prop := P r.2

section Ends

variable {P : σ → Prop} {f : α → InPlace σ ε β} {s : σ}

theorem Ends.bind {x : InPlace σ ε α} (h : P (x s).2)
    (hnext : ∀ a t, x s = (.ok a, t) → Ends P (f a t)) : Ends P ((x >>= f) s) := by
  rcases hx : x s with ⟨_ | a, t⟩
  · rw [bind_of_error hx]
    rw [hx] at h
    exact h
  · rw [bind_of_ok hx]
    exact hnext a t hx

theorem Ends.check_bind {x : Except ε α} (h : P s) (hnext : ∀ a, x = .ok a → Ends P (f a s)) :
    Ends P ((check x >>= f) s) := by
  cases x with
  | error e => exact h
  | ok a => exact hnext a rfl

theorem Ends.read_bind {f : σ → InPlace σ ε β} (h : Ends P (f s s)) : Ends P ((read >>= f) s) := h

theorem Ends.update_bind {c : σ → σ} {f : Unit → InPlace σ ε β} (h : Ends P (f () (c s))) :
    Ends P ((update c >>= f) s) := h

end Ends

/-! ## Two runs side by side -/

section Alike

variable {τ γ δ : Type} {Q : α → β → Prop} {R : σ → τ → Prop}

/-- Two runs end alike: in the same error or in related results, with related receivers. -/
def Alike (Q : α → β → Prop) (R : σ → τ → Prop) : Except ε α × σ → Except ε β × τ → Prop
  | (.ok a, s), (.ok b, t) => Q a b ∧ R s t
  | (.error e, s), (.error e', t) => e = e' ∧ R s t
  | _, _ => False

variable {Q' : γ → δ → Prop} {s : σ} {t : τ}

theorem Alike.bind {x : InPlace σ ε α} {y : InPlace τ ε β} {f : α → InPlace σ ε γ}
    {g : β → InPlace τ ε δ} (h : Alike Q R (x s) (y t))
    (hnext : ∀ a b s' t', Q a b → R s' t' → Alike Q' R (f a s') (g b t')) :
    Alike Q' R ((x >>= f) s) ((y >>= g) t) := by
  rcases hx : x s with ⟨_ | a, s'⟩ <;> rcases hy : y t with ⟨_ | b, t'⟩ <;> rw [hx, hy] at h
  · rw [bind_of_error hx, bind_of_error hy]
    exact h
  · exact h.elim
  · exact h.elim
  · rw [bind_of_ok hx, bind_of_ok hy]
    exact hnext a b s' t' h.1 h.2

theorem Alike.update_bind {c : σ → σ} {d : τ → τ} {f : Unit → InPlace σ ε γ}
    {g : Unit → InPlace τ ε δ} (h : Alike Q' R (f () (c s)) (g () (d t))) :
    Alike Q' R ((update c >>= f) s) ((update d >>= g) t) := h

theorem Alike.read_bind {f : σ → InPlace σ ε γ} {g : τ → InPlace τ ε δ}
    (h : Alike Q' R (f s s) (g t t)) :
    Alike Q' R ((read >>= f) s) ((read >>= g) t) := h

theorem Alike.check_bind {x y : Except ε α} {f : α → InPlace σ ε γ} {g : α → InPlace τ ε δ}
    (heq : x = y) (hR : R s t) (h : ∀ a, y = .ok a → Alike Q' R (f a s) (g a t)) :
    Alike Q' R ((check x >>= f) s) ((check y >>= g) t) := by
  subst heq
  cases x with
  | error e => exact ⟨rfl, hR⟩
  | ok a => exact h a rfl

end Alike

end InPlace
