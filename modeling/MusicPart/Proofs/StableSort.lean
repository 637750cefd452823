import Mathlib.Data.List.Basic
import Mathlib.Order.Lattice

/-!
# Stable sorting

A stable sort puts a list in order and leaves what ties as it stood, so its result is determined by
how the members that tie with each one stand to each other. The order has to be one among the
members of the list only; beyond them, as for values that are not numbers, it may fail to be one.
-/

namespace MusicPart

variable {β : Type}

/-- A total order, ties allowed, among what has a property. -/
structure OrdersOn (p : β → Bool) (le : β → β → Bool) : Prop where
  total {a b : β} : p a = true → p b = true → le a b = true ∨ le b a = true
  trans {a b c : β} : p a = true → p b = true → p c = true → le a b = true → le b c = true →
    le a c = true

def ties (le : β → β → Bool) (a b : β) : Bool := le a b && le b a

/-- The first order, and the next one where the first one ties. -/
def thenBy (le next : β → β → Bool) (a b : β) : Bool := le a b && (!le b a || next a b)

theorem ties_thenBy (le next : β → β → Bool) (a b : β) :
    ties (thenBy le next) a b = (ties le a b && ties next a b) := by
  rw [ties, thenBy, thenBy, ties, ties]
  cases le a b <;> cases le b a <;> simp

/-- The order of a key. -/
def byKey {γ : Type} [LinearOrder γ] (key : β → γ) (a b : β) : Bool := decide (key a ≤ key b)

theorem ties_byKey {γ : Type} [LinearOrder γ] (key : β → γ) (a b : β) :
    ties (byKey key) a b = (key a == key b) := by
  rw [ties, byKey, byKey, ← Bool.decide_and, beq_eq_decide]
  exact decide_eq_decide.mpr le_antisymm_iff.symm

theorem not_decide_lt {γ : Type} [LinearOrder γ] (key : β → γ) (a b : β) :
    (!decide (key b < key a)) = byKey key a b := by
  rw [byKey, ← decide_not]
  exact decide_eq_decide.mpr not_lt

/-- The order with everything else at the end. -/
def extended (p : β → Bool) (le : β → β → Bool) (a b : β) : Bool := !p b || p a && le a b

variable {p : β → Bool} {le : β → β → Bool}

namespace OrdersOn

theorem ties_self (h : OrdersOn p le) {a : β} (ha : p a = true) : ties le a a = true := by
  rcases h.total ha ha with hle | hle
  · simp [ties, hle]
  · simp [ties, hle]

/-- What ties with the same member ties. -/
theorem ties_of_ties (h : OrdersOn p le) {a b c : β} (ha : p a = true) (hb : p b = true)
    (hc : p c = true) (hab : ties le a b = true) (hac : ties le a c = true) :
    ties le b c = true := by
  simp only [ties, Bool.and_eq_true] at *
  exact ⟨h.trans hb ha hc hab.2 hac.1, h.trans hc ha hb hac.2 hab.1⟩

theorem congr {le' : β → β → Bool} (h : OrdersOn p le)
    (heq : ∀ {a b}, p a = true → p b = true → le' a b = le a b) : OrdersOn p le' where
  total ha hb := by
    rw [heq ha hb, heq hb ha]
    exact h.total ha hb
  trans ha hb hc hab hbc := by
    rw [heq ha hb] at hab
    rw [heq hb hc] at hbc
    rw [heq ha hc]
    exact h.trans ha hb hc hab hbc

theorem byKey {γ : Type} [LinearOrder γ] (p : β → Bool) (key : β → γ) :
    OrdersOn p (byKey key) where
  total {a b} _ _ := by
    simp only [MusicPart.byKey, decide_eq_true_eq]
    exact le_total (key a) (key b)
  trans _ _ _ hab hbc := by
    simp only [MusicPart.byKey, decide_eq_true_eq] at *
    exact le_trans hab hbc

theorem thenBy {next : β → β → Bool} (h : OrdersOn p le) (hnext : OrdersOn p next) :
    OrdersOn p (thenBy le next) where
  total {a b} ha hb := by
    simp only [MusicPart.thenBy, Bool.and_eq_true, Bool.or_eq_true, Bool.not_eq_true']
    rcases hab : le a b with _ | _
    · have hba : le b a = true := (h.total ha hb).resolve_left (by simp [hab])
      exact Or.inr ⟨hba, Or.inl rfl⟩
    · rcases hba : le b a with _ | _
      · exact Or.inl ⟨rfl, Or.inl rfl⟩
      · rcases hnext.total ha hb with hle | hle
        · exact Or.inl ⟨rfl, Or.inr hle⟩
        · exact Or.inr ⟨rfl, Or.inr hle⟩
  trans {a b c} ha hb hc hab hbc := by
    simp only [MusicPart.thenBy, Bool.and_eq_true, Bool.or_eq_true, Bool.not_eq_true'] at *
    refine ⟨h.trans ha hb hc hab.1 hbc.1, ?_⟩
    rcases hca : le c a with _ | _
    · exact Or.inl rfl
    · -- If the ends tie, so does what is between them, and the next order decides.
      have hba := h.trans hb hc ha hbc.1 hca
      have hcb := h.trans hc ha hb hca hab.1
      right
      exact hnext.trans ha hb hc (hab.2.resolve_left (by simp [hba]))
        (hbc.2.resolve_left (by simp [hcb]))

theorem extended_total (h : OrdersOn p le) (a b : β) :
    (extended p le a b || extended p le b a) = true := by
  by_cases ha : p a = true
  · by_cases hb : p b = true
    · rcases h.total ha hb with hle | hle
      · simp [extended, ha, hle]
      · simp [extended, hb, hle]
    · simp [extended, hb]
  · simp [extended, ha]

theorem extended_trans (h : OrdersOn p le) (a b c : β) (hab : extended p le a b = true)
    (hbc : extended p le b c = true) : extended p le a c = true := by
  by_cases hc : p c = true
  · obtain ⟨hb, hbc⟩ : p b = true ∧ le b c = true := by simpa [extended, hc] using hbc
    obtain ⟨ha, hab⟩ : p a = true ∧ le a b = true := by simpa [extended, hb] using hab
    simp [extended, ha, h.trans ha hb hc hab hbc]
  · simp [extended, hc]

variable {xs ys : List β}

theorem mergeSort_extended (hx : ∀ a ∈ xs, p a = true) :
    xs.mergeSort le = xs.mergeSort (extended p le) := by
  have hmap := List.map_mergeSort (r := le) (s := extended p le) (f := id) (l := xs) ?_
  · rwa [List.map_id, List.map_id] at hmap
  · intro a ha b hb
    simp [extended, hx a ha, hx b hb]

theorem pairwise_mergeSort (h : OrdersOn p le) (hx : ∀ a ∈ xs, p a = true) :
    (xs.mergeSort le).Pairwise fun a b => le a b = true := by
  rw [mergeSort_extended hx]
  refine (List.pairwise_mergeSort h.extended_trans h.extended_total xs).imp_of_mem ?_
  intro a b _ hb hab
  have hpb := hx b ((List.mergeSort_perm _ _).mem_iff.mp hb)
  have hab : p a = true ∧ le a b = true := by simpa [extended, hpb] using hab
  exact hab.2

/-- Sorting leaves the members that tie with one as they stood. -/
theorem filter_ties_mergeSort (h : OrdersOn p le) (hx : ∀ a ∈ xs, p a = true) {a : β}
    (ha : p a = true) : (xs.mergeSort le).filter (ties le a) = xs.filter (ties le a) := by
  have hsorted : (xs.filter (ties le a)).Pairwise fun b c => extended p le b c = true := by
    refine List.pairwise_of_forall_mem_list fun b hb c hc => ?_
    obtain ⟨hbx, hb⟩ := List.mem_filter.mp hb
    obtain ⟨hcx, hc⟩ := List.mem_filter.mp hc
    simp only [ties, Bool.and_eq_true] at hb hc
    have hle := h.trans (hx b hbx) ha (hx c hcx) hb.2 hc.1
    simp [extended, hx b hbx, hle]
  have hsub : (xs.filter (ties le a)).Sublist (xs.mergeSort le) := by
    rw [mergeSort_extended hx]
    exact List.sublist_mergeSort h.extended_trans h.extended_total hsorted List.filter_sublist
  have hfilter := hsub.filter (ties le a)
  rw [List.filter_filter] at hfilter
  simp only [Bool.and_self] at hfilter
  refine (hfilter.eq_of_length ?_).symm
  exact ((List.mergeSort_perm xs le).filter (ties le a)).length_eq.symm

theorem mem_of_filter_ties (h : OrdersOn p le) {a : β} (ha : p a = true) (hmem : a ∈ xs)
    (hties : xs.filter (ties le a) = ys.filter (ties le a)) : a ∈ ys := by
  have ha : a ∈ xs.filter (ties le a) := List.mem_filter.mpr ⟨hmem, h.ties_self ha⟩
  rw [hties] at ha
  exact (List.mem_filter.mp ha).1

/-- In order, a list is determined by what ties with each member. -/
theorem eq_of_filter_ties (h : OrdersOn p le) (hx : ∀ a ∈ xs, p a = true)
    (hy : ∀ a ∈ ys, p a = true) (hxs : xs.Pairwise fun a b => le a b = true)
    (hys : ys.Pairwise fun a b => le a b = true)
    (hties : ∀ a, p a = true → xs.filter (ties le a) = ys.filter (ties le a)) : xs = ys := by
  induction xs generalizing ys with
  | nil =>
      cases ys with
      | nil => rfl
      | cons y ys =>
          have hpy := hy y List.mem_cons_self
          exact absurd (h.mem_of_filter_ties hpy List.mem_cons_self (hties y hpy).symm)
            List.not_mem_nil
  | cons x xs ih =>
      have hpx := hx x List.mem_cons_self
      have hmem := h.mem_of_filter_ties hpx List.mem_cons_self (hties x hpx)
      cases ys with
      | nil => exact absurd hmem List.not_mem_nil
      | cons y ys =>
          have hpy := hy y List.mem_cons_self
          obtain ⟨hleast, hrest⟩ := List.pairwise_cons.mp hxs
          obtain ⟨hleast', hrest'⟩ := List.pairwise_cons.mp hys
          -- Each head is a member of the other list, so the two heads tie and are the same.
          have heq : x = y := by
            rcases List.mem_cons.mp hmem with heq | hmem
            · exact heq
            rcases List.mem_cons.mp (h.mem_of_filter_ties hpy List.mem_cons_self
              (hties y hpy).symm) with heq | hmem'
            · exact heq.symm
            have hxy : ties le x y = true := by
              simp [ties, hleast y hmem', hleast' x hmem]
            have hheads := hties x hpx
            rw [List.filter_cons_of_pos (h.ties_self hpx), List.filter_cons_of_pos hxy] at hheads
            exact (List.cons.inj hheads).1
          subst heq
          congr 1
          refine ih (fun a ha => hx a (List.mem_cons_of_mem x ha))
            (fun a ha => hy a (List.mem_cons_of_mem x ha)) hrest hrest' fun a ha => ?_
          have htails := hties a ha
          rw [List.filter_cons, List.filter_cons] at htails
          split at htails
          · exact (List.cons.inj htails).2
          · exact htails

/-- Lists in which the same members tie with each one, in the same order, are sorted alike. -/
theorem mergeSort_eq (h : OrdersOn p le) (hx : ∀ a ∈ xs, p a = true) (hy : ∀ a ∈ ys, p a = true)
    (hties : ∀ a, p a = true → xs.filter (ties le a) = ys.filter (ties le a)) :
    xs.mergeSort le = ys.mergeSort le := by
  refine h.eq_of_filter_ties (fun a ha => hx a ((List.mergeSort_perm _ _).mem_iff.mp ha))
    (fun a ha => hy a ((List.mergeSort_perm _ _).mem_iff.mp ha)) (h.pairwise_mergeSort hx)
    (h.pairwise_mergeSort hy) fun a ha => ?_
  rw [h.filter_ties_mergeSort hx ha, h.filter_ties_mergeSort hy ha]
  exact hties a ha

/-- Selecting what has a property and sorting can be done in either order. -/
theorem filter_mergeSort (h : OrdersOn p le) (hx : ∀ a ∈ xs, p a = true) (q : β → Bool) :
    (xs.mergeSort le).filter q = (xs.filter q).mergeSort le := by
  have hselected : ∀ a ∈ xs.filter q, p a = true := fun a ha => hx a (List.mem_filter.mp ha).1
  have hperm := (List.mergeSort_perm xs le).filter q
  refine h.eq_of_filter_ties (fun a ha => hselected a (hperm.mem_iff.mp ha))
    (fun a ha => hselected a ((List.mergeSort_perm _ _).mem_iff.mp ha))
    ((h.pairwise_mergeSort hx).sublist List.filter_sublist) (h.pairwise_mergeSort hselected)
    fun a ha => ?_
  calc ((xs.mergeSort le).filter q).filter (ties le a)
      = ((xs.mergeSort le).filter (ties le a)).filter q := List.filter_comm _ _ _
    _ = (xs.filter (ties le a)).filter q := by rw [h.filter_ties_mergeSort hx ha]
    _ = (xs.filter q).filter (ties le a) := List.filter_comm _ _ _
    _ = ((xs.filter q).mergeSort le).filter (ties le a) :=
        (h.filter_ties_mergeSort hselected ha).symm

/-- The same of a comparison that agrees with the order, and of another way to say what ties. -/
theorem mergeSort_eq_of_ties (h : OrdersOn p le) {le' q : β → β → Bool}
    (hle : ∀ {a b}, p a = true → p b = true → le' a b = le a b)
    (hq : ∀ {a b}, p a = true → p b = true → ties le a b = q a b) (hx : ∀ a ∈ xs, p a = true)
    (hy : ∀ a ∈ ys, p a = true)
    (hties : ∀ a, p a = true → xs.filter (q a) = ys.filter (q a)) :
    xs.mergeSort le' = ys.mergeSort le' := by
  refine (h.congr hle).mergeSort_eq hx hy fun a ha => ?_
  have hsame {b : β} (hb : p b = true) : ties le' a b = q a b := by
    rw [← hq ha hb, ties, ties, hle ha hb, hle hb ha]
  rw [List.filter_congr fun b hb => hsame (hx b hb), List.filter_congr fun b hb => hsame (hy b hb)]
  exact hties a ha

end OrdersOn

/-- Among members that do not share a property a rearrangement does not show. -/
theorem filter_eq_of_perm {q : β → Bool} {xs ys : List β} (h : xs.Perm ys)
    (hx : xs.Pairwise fun a b => ¬(q a = true ∧ q b = true)) : xs.filter q = ys.filter q := by
  induction h with
  | nil => rfl
  | cons a _ ih => rw [List.filter_cons, List.filter_cons, ih (List.pairwise_cons.mp hx).2]
  | swap a b l =>
      have hab := (List.pairwise_cons.mp hx).1 a List.mem_cons_self
      by_cases ha : q a = true
      · have hb : ¬q b = true := fun hb => hab ⟨hb, ha⟩
        simp [ha, hb]
      · rw [List.filter_cons, List.filter_cons, List.filter_cons, List.filter_cons, if_neg ha]
        simp [ha]
  | trans h₁ _ ih₁ ih₂ =>
      have hsymm {a b : β} (hab : ¬(q a = true ∧ q b = true)) : ¬(q b = true ∧ q a = true) :=
        fun hba => hab hba.symm
      exact (ih₁ hx).trans (ih₂ (h₁.pairwise hx hsymm))

end MusicPart
