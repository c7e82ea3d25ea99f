import Xparq.Lib.Machine
import Xparq.Lib.OrderedMap
import Xparq.Lib.Outcome

/-!
# Adding up and selecting inputs

A loop that looks up keys and adds the amounts found succeeds exactly when every key is there
and the true sum fits (`foldlM_lookup`).

`gather` takes candidates in order and adds up their amounts until the target is reached or
the candidates run out. What it takes is a prefix of the candidates (`gather_ok`).
-/

open Machine Outcome List

universe u v

namespace Selection

variable {α β : Type u} {ε : Type v} {n : Nat}

def gather (amountOf : α → Except ε (Fin n)) (overflow : ε) (target : Fin n) :
    List α → Fin n → Except ε (List α × Fin n)
  | [], total => .ok ([], total)
  | a :: rest, total =>
    match amountOf a with
    | .error e => .error e
    | .ok amount =>
      match checkedAdd total amount with
      | none => .error overflow
      | some total =>
        if total ≥ target then .ok ([a], total)
        else match gather amountOf overflow target rest total with
          | .error e => .error e
          | .ok (taken, total) => .ok (a :: taken, total)

variable {amountOf : α → Except ε (Fin n)} {overflow : ε} {target total total' : Fin n}
  {taken : List α}

theorem gather_cons_ok {a : α} {rest : List α}
    (h : gather amountOf overflow target (a :: rest) total = .ok (taken, total')) :
    ∃ amount sum, amountOf a = .ok amount ∧ checkedAdd total amount = some sum ∧
      ((target ≤ sum ∧ taken = [a] ∧ total' = sum) ∨
        (¬ target ≤ sum ∧ ∃ taken',
        gather amountOf overflow target rest sum = .ok (taken', total') ∧
          taken = a :: taken')) := by
  rw [gather] at h
  split at h
  · cases h
  · rename_i amount hamount
    split at h
    · cases h
    · rename_i sum hsum
      refine ⟨amount, sum, hamount, hsum, ?_⟩
      split at h
      · rename_i hge
        cases h
        exact Or.inl ⟨hge, rfl, rfl⟩
      · rename_i hlt
        split at h
        · cases h
        · rename_i taken' total'' hrest
          cases h
          exact Or.inr ⟨hlt, taken', hrest, rfl⟩

/-- What is taken is a prefix of the candidates, and the total is the sum of its amounts. -/
theorem gather_ok {l : List α} (h : gather amountOf overflow target l total = .ok (taken, total')) :
    taken <+: l ∧ ∃ amounts : List (Fin n),
      List.Forall₂ (fun a v => amountOf a = .ok v) taken amounts ∧
      total'.val = total.val + (amounts.map Fin.val).sum := by
  induction l generalizing total taken with
  | nil =>
    cases h
    exact ⟨ nil_prefix, [], List.Forall₂.nil, by simp⟩
  | cons a rest ih =>
    obtain ⟨amount, sum, hamount, hsum, hcase⟩ := gather_cons_ok h
    rw [checkedAdd_eq_some] at hsum
    rcases hcase with ⟨_, rfl, rfl⟩ | ⟨_, taken', hrest, rfl⟩
    · exact ⟨⟨rest, rfl⟩, [amount], .cons hamount .nil, by simp [hsum]⟩
    · obtain ⟨hinit, amounts, hamounts, htotal⟩ := ih hrest
      refine ⟨(prefix_cons_inj a).mpr hinit, amount :: amounts, .cons hamount hamounts, ?_⟩
      simp only [map_cons, sum_cons, htotal, hsum]
      omega

/-! ## Sums of looked up entries -/

section Lookup

variable {K V ε : Type} [LinearOrder K]

variable {m : OrderedMap K V} {entries entries' : List (K × V)}

/-- `hf` says what one round of the loop does; `P` is what it requires of a value. -/
theorem foldlM_lookup {f : Fin n → K → Except ε (Fin n)} (amount : V → Fin n)
    (P : V → Prop) (hf : ∀ total k t, f total k = .ok t ↔
      ∃ v, m.get? k = some v ∧ P v ∧ t.val = total.val + (amount v).val)
    {keys : List K} {total t : Fin n} :
    keys.foldlM f total = .ok t ↔ ∃ entries : List (K × V), entries.map Prod.fst = keys ∧
      (∀ e ∈ entries, m.get? e.1 = some e.2 ∧ P e.2) ∧
      t.val = total.val + (entries.map fun e => (amount e.2).val).sum := by
  induction keys generalizing total with
  | nil =>
    simp only [foldlM_nil, pure_eq_ok, Except.ok.injEq, map_eq_nil_iff]
    constructor
    · rintro rfl
      exact ⟨[], rfl, by simp, rfl⟩
    · rintro ⟨_, rfl, _, ht⟩
      exact Fin.ext ht.symm
  | cons k rest ih =>
    rw [foldlM_cons, bind_eq_ok]
    constructor
    · rintro ⟨mid, hmid, hrest⟩
      obtain ⟨v, hget, hP, hsum⟩ := (hf total k mid).mp hmid
      obtain ⟨entries, hmap, hall, ht⟩ := ih.mp hrest
      refine ⟨(k, v) :: entries, by simp [hmap], ?_, ?_⟩
      · intro e he
        rcases mem_cons.mp he with rfl | he
        · exact ⟨hget, hP⟩
        · exact hall e he
      · simp only [map_cons, sum_cons]
        omega
    · rintro ⟨entries, hmap, hall, ht⟩
      obtain ⟨e, entries, rfl, rfl, htail⟩ := map_eq_cons_iff.mp hmap
      rw [map_cons, sum_cons] at ht
      have hlt : total.val + (amount e.2).val < n := by have := t.isLt; omega
      obtain ⟨hget, hP⟩ := hall e mem_cons_self
      refine ⟨⟨_, hlt⟩, (hf _ _ _).mpr ⟨e.2, hget, hP, rfl⟩, ih.mpr ⟨entries, htail, ?_, ?_⟩⟩
      · exact fun d hd => hall d (mem_cons_of_mem _ hd)
      · simp only
        omega

theorem lookup_unique (hmap : entries.map Prod.fst = entries'.map Prod.fst)
    (h : ∀ e ∈ entries, m.get? e.1 = some e.2) (h' : ∀ e ∈ entries', m.get? e.1 = some e.2) :
    entries = entries' := by
  induction entries generalizing entries' with
  | nil => exact (map_eq_nil_iff.mp hmap.symm).symm
  | cons e rest ih =>
    obtain ⟨e', rest', rfl, hfst, hrest⟩ := map_eq_cons_iff.mp hmap.symm
    have he := h e mem_cons_self
    have he' := h' e' mem_cons_self
    rw [hfst, he] at he'
    obtain rfl : e = e' := Prod.ext hfst.symm (Option.some.inj he')
    rw [ih hrest.symm (fun d hd => h d (mem_cons_of_mem _ hd))
      fun d hd => h' d (mem_cons_of_mem _ hd)]

theorem mem_of_lookup (hkeys : entries.map Prod.fst ⊆ entries'.map Prod.fst)
    (h : ∀ e ∈ entries, m.get? e.1 = some e.2) (h' : ∀ e ∈ entries', m.get? e.1 = some e.2) :
    entries ⊆ entries' := by
  intro e he
  obtain ⟨e', he', hfst⟩ := mem_map.mp (hkeys (mem_map_of_mem he))
  have hget := h' e' he'
  rw [hfst, h e he, Option.some.injEq] at hget
  rwa [Prod.ext hfst.symm hget]

end Lookup

end Selection
