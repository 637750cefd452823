import MusicPart.Note.Overlap
import MusicPart.Note.Phrasing
import MusicPart.Proofs.NoteOrder

/-!
# Shortening notes

Monophony, the removal of overlaps and the limits of short articulations rearrange notes, leave some
out and make some shorter, and do nothing else. `Trims` is any succession of such steps; what holds
between all notes and does not mind shorter ones survives it.
-/

namespace MusicPart.Note

/-- The second note is the first one as it was, or shorter and not below the shortest note. -/
structure Shortens (a b : Note Rat) : Prop where
  same : b = { a with duration := b.duration }
  duration : b.duration = a.duration ∨ shortest ≤ b.duration ∧ b.duration < a.duration

namespace Shortens

variable {a b c : Note Rat}

theorem start_eq (h : Shortens a b) : b.start = a.start := by
  rw [h.same]

theorem pitch_eq (h : Shortens a b) : b.pitch = a.pitch := by
  rw [h.same]

theorem velocity_eq (h : Shortens a b) : b.velocity = a.velocity := by
  rw [h.same]

theorem channel_eq (h : Shortens a b) : b.channel = a.channel := by
  rw [h.same]

theorem duration_le (h : Shortens a b) : b.duration ≤ a.duration := by
  rcases h.duration with h | ⟨-, h⟩
  · exact h.le
  · exact h.le

theorem shortest_le (h : Shortens a b) (ha : shortest ≤ a.duration) : shortest ≤ b.duration := by
  rcases h.duration with h | ⟨h, -⟩
  · exact h ▸ ha
  · exact h

theorem finish_le (h : Shortens a b) : b.finish ≤ a.finish := by
  have hd := h.duration_le
  rw [finish_eq, finish_eq, h.start_eq]
  linarith

theorem refl (a : Note Rat) : Shortens a a := ⟨rfl, Or.inl rfl⟩

theorem trans (hab : Shortens a b) (hbc : Shortens b c) : Shortens a c := by
  refine ⟨?_, ?_⟩
  · rw [hbc.same, hab.same]
  · rcases hbc.duration with h | ⟨h, hlt⟩
    · exact h ▸ hab.duration
    · exact Or.inr ⟨h, hlt.trans_le hab.duration_le⟩

theorem of_duration {d : Rat} (h : d = a.duration ∨ shortest ≤ d ∧ d < a.duration) :
    Shortens a { a with duration := d } := ⟨rfl, h⟩

end Shortens

theorem exists_mem_of_forall₂ {β : Type} {S : β → β → Prop} {xs ys : List β}
    (h : List.Forall₂ S xs ys) {y : β} (hy : y ∈ ys) : ∃ x ∈ xs, S x y := by
  obtain ⟨i, hi, rfl⟩ := List.getElem_of_mem hy
  have hi' : i < xs.length := h.length_eq ▸ hi
  exact ⟨xs[i], List.getElem_mem hi', h.get hi' hi⟩

/-- Notes rearranged, thinned out and shortened. -/
inductive Trims : List (Note Rat) → List (Note Rat) → Prop
  | perm {xs ys} : xs.Perm ys → Trims xs ys
  | drop {xs ys} : ys.Sublist xs → Trims xs ys
  | shorten {xs ys} : List.Forall₂ Shortens xs ys → Trims xs ys
  | trans {xs ys zs} : Trims xs ys → Trims ys zs → Trims xs zs

namespace Trims

variable {xs ys zs : List (Note Rat)}

theorem exists_mem (h : Trims xs ys) : ∀ n ∈ ys, ∃ m ∈ xs, Shortens m n := by
  induction h with
  | perm hp => exact fun n hn => ⟨n, hp.mem_iff.mpr hn, .refl n⟩
  | drop hs => exact fun n hn => ⟨n, hs.subset hn, .refl n⟩
  | shorten hf => exact fun n hn => exists_mem_of_forall₂ hf hn
  | trans _ _ ih₁ ih₂ =>
      intro n hn
      obtain ⟨m, hm, hmn⟩ := ih₂ n hn
      obtain ⟨l, hl, hlm⟩ := ih₁ m hm
      exact ⟨l, hl, hlm.trans hmn⟩

theorem shortest_le (h : Trims xs ys) (hx : ∀ n ∈ xs, shortest ≤ n.duration) :
    ∀ n ∈ ys, shortest ≤ n.duration := by
  intro n hn
  obtain ⟨m, hm, hmn⟩ := h.exists_mem n hn
  exact hmn.shortest_le (hx m hm)

theorem append_right (h : Trims xs ys) (zs : List (Note Rat)) :
    Trims (xs ++ zs) (ys ++ zs) := by
  induction h with
  | perm hp => exact .perm (hp.append_right zs)
  | drop hs => exact .drop (hs.append_right zs)
  | shorten hf =>
      exact .shorten (List.rel_append hf (List.forall₂_same.mpr fun n _ => .refl n))
  | trans _ _ ih₁ ih₂ => exact .trans ih₁ ih₂

theorem append (h : Trims xs ys) {us vs : List (Note Rat)} (h' : Trims us vs) :
    Trims (xs ++ us) (ys ++ vs) := by
  have hl : Trims (ys ++ us) (ys ++ vs) :=
    .trans (.perm List.perm_append_comm)
      (.trans (h'.append_right ys) (.perm List.perm_append_comm))
  exact .trans (h.append_right us) hl

theorem flatMap {β : Type} {f g : β → List (Note Rat)} (bs : List β)
    (h : ∀ b ∈ bs, Trims (f b) (g b)) : Trims (bs.flatMap f) (bs.flatMap g) := by
  induction bs with
  | nil => exact .perm .nil
  | cons b bs ih =>
      rw [List.flatMap_cons, List.flatMap_cons]
      exact (h b (by simp)).append (ih fun c hc => h c (by simp [hc]))

end Trims

/-! ### Relations between notes -/

/-- A relation that does not mind which note comes first, and that survives the shortening of
either note. -/
structure Lasting (R : Note Rat → Note Rat → Prop) : Prop where
  symm : ∀ {a b}, R a b → R b a
  shorten : ∀ {a b a'}, R a b → Shortens a a' → R a' b

theorem Lasting.shorten₂ {R : Note Rat → Note Rat → Prop} (hR : Lasting R) {a b a' b' : Note Rat}
    (h : R a b) (ha : Shortens a a') (hb : Shortens b b') : R a' b' :=
  hR.symm (hR.shorten (hR.symm (hR.shorten h ha)) hb)

theorem pairwise_of_forall₂ {β : Type} {R R' : β → β → Prop} {S : β → β → Prop} {xs ys : List β}
    (h : List.Forall₂ S xs ys) (hR : ∀ {a b a' b'}, R a b → S a a' → S b b' → R' a' b')
    (hx : xs.Pairwise R) : ys.Pairwise R' := by
  induction h with
  | nil => exact .nil
  | @cons a a' xs ys ha hs ih =>
      obtain ⟨hhead, htail⟩ := List.pairwise_cons.mp hx
      refine List.pairwise_cons.mpr ⟨?_, ih htail⟩
      intro b' hb'
      obtain ⟨b, hb, hbb'⟩ := exists_mem_of_forall₂ hs hb'
      exact hR (hhead b hb) ha hbb'

theorem Trims.pairwise {R : Note Rat → Note Rat → Prop} (hR : Lasting R)
    {xs ys : List (Note Rat)} (h : Trims xs ys) (hx : xs.Pairwise R) : ys.Pairwise R := by
  induction h with
  | perm hp => exact hp.pairwise hx hR.symm
  | drop hs => exact hx.sublist hs
  | shorten hf => exact pairwise_of_forall₂ hf hR.shorten₂ hx
  | trans _ _ ih₁ ih₂ => exact ih₂ (ih₁ hx)

end MusicPart.Note
