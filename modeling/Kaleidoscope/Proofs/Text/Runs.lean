import Mathlib.Tactic.Basic

/-!
# Texts that fall into parts in one way

A text is put together from parts that are written one after the other. It can be taken apart again
if each part is told from what may follow it: a run ends before the first character that is none of
its own, and a list of parts ends where no further part begins.
-/

namespace Kaleidoscope

variable {α β : Type}

/-- A number can be read back from its digits. -/
theorem eq_of_repr_eq {m n : Nat} (h : m.repr = n.repr) : m = n := by
  rw [Nat.repr_eq_ofList_toDigits, Nat.repr_eq_ofList_toDigits, String.ofList_inj] at h
  rw [← @Nat.ofDigitChars_ten_toDigits m, h, Nat.ofDigitChars_ten_toDigits]

/-- A run of elements that have a property ends where one comes that does not have it. -/
theorem run_unique {p : α → Prop} {a b r r' : List α} (ha : ∀ x ∈ a, p x) (hb : ∀ x ∈ b, p x)
    (hr : ∀ x ∈ r.head?, ¬ p x) (hr' : ∀ x ∈ r'.head?, ¬ p x) (h : a ++ r = b ++ r') :
    a = b ∧ r = r' := by
  induction a generalizing b with
  | nil =>
    cases b with
    | nil => exact ⟨rfl, h⟩
    | cons x b =>
      subst h
      exact (hr x rfl (hb x List.mem_cons_self)).elim
  | cons x a ih =>
    cases b with
    | nil =>
      subst h
      exact (hr' x rfl (ha x List.mem_cons_self)).elim
    | cons y b =>
      obtain ⟨rfl, htail⟩ := List.cons.inj h
      obtain ⟨rfl, hrest⟩ := ih (fun x hx => ha x (List.mem_cons_of_mem _ hx))
        (fun x hx => hb x (List.mem_cons_of_mem _ hx)) htail
      exact ⟨rfl, hrest⟩

/-- What comes before a separator ends at the first one. -/
theorem segment_unique {c : α} {a b r r' : List α} (ha : c ∉ a) (hb : c ∉ b)
    (h : a ++ c :: r = b ++ c :: r') : a = b ∧ r = r' := by
  have hother {a : List α} (ha : c ∉ a) : ∀ x ∈ a, x ≠ c := fun x hx heq => ha (heq ▸ hx)
  obtain ⟨hsame, hrest⟩ := run_unique (hother ha) (hother hb) (by simp) (by simp) h
  exact ⟨hsame, (List.cons.inj hrest).2⟩

/-- Members that are told apart by a function are told apart by the list of its values. -/
theorem map_unique {f : α → β} {as bs : List α} (h : ∀ a ∈ as, ∀ b ∈ bs, f a = f b → a = b)
    (heq : as.map f = bs.map f) : as = bs := by
  induction as generalizing bs with
  | nil => exact (List.map_eq_nil_iff.1 heq.symm).symm
  | cons a as ih =>
    cases bs with
    | nil => cases heq
    | cons b bs =>
      obtain ⟨hfirst, hrest⟩ := List.cons.inj heq
      rw [h a List.mem_cons_self b List.mem_cons_self hfirst, ih (fun a ha b hb =>
        h a (List.mem_cons_of_mem _ ha) b (List.mem_cons_of_mem _ hb)) hrest]

/-- What is written for `a` can be told from what is written for other things like it, where what
follows is fit to. -/
def Apart (write : α → List β) (S : α → Prop) (Fit : List β → Prop) (a : α) : Prop :=
  ∀ {b r r'}, S b → Fit r → Fit r' → write a ++ r = write b ++ r' → a = b ∧ r = r'

/-- No part looks like the end of a list of parts, and what is fit to follow a part is another one,
or the end. -/
structure Framed (write : α → List β) (P : α → Prop) (Fit End : List β → Prop) : Prop where
  begins : ∀ {a}, P a → ∀ r, ¬ End (write a ++ r)
  fits : ∀ {as : List α}, (∀ a ∈ as, P a) → ∀ {r}, End r → Fit (as.flatMap write ++ r)

/-- Parts can be told apart up to their end. -/
theorem Framed.unique {write : α → List β} {S P : α → Prop} {Fit End : List β → Prop}
    (h : Framed write P Fit End) {as bs : List α} (has : ∀ a ∈ as, P a)
    (hapart : ∀ a ∈ as, Apart write S Fit a) (hbs : ∀ b ∈ bs, P b) (hlike : ∀ b ∈ bs, S b)
    {r r' : List β} (hr : End r) (hr' : End r') (heq : as.flatMap write ++ r = bs.flatMap write ++ r') :
    as = bs ∧ r = r' := by
  induction as generalizing bs with
  | nil =>
    cases bs with
    | nil => exact ⟨rfl, heq⟩
    | cons b bs =>
      rw [List.flatMap_nil, List.nil_append, List.flatMap_cons, List.append_assoc] at heq
      exact (h.begins (hbs b List.mem_cons_self) _ (heq ▸ hr)).elim
  | cons a as ih =>
    obtain ⟨ha, has⟩ := List.forall_mem_cons.1 has
    obtain ⟨hfirst, hapart⟩ := List.forall_mem_cons.1 hapart
    rw [List.flatMap_cons, List.append_assoc] at heq
    cases bs with
    | nil =>
      rw [List.flatMap_nil, List.nil_append] at heq
      exact (h.begins ha _ (heq ▸ hr')).elim
    | cons b bs =>
      obtain ⟨-, hmore⟩ := List.forall_mem_cons.1 hbs
      obtain ⟨hb, hmoreLike⟩ := List.forall_mem_cons.1 hlike
      rw [List.flatMap_cons, List.append_assoc] at heq
      obtain ⟨rfl, hbehind⟩ := hfirst hb (h.fits has hr) (h.fits hmore hr') heq
      obtain ⟨rfl, hrest⟩ := ih has hapart hmore hmoreLike hbehind
      exact ⟨rfl, hrest⟩

end Kaleidoscope
