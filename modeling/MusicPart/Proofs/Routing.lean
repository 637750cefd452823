import MusicPart.Articulation.Delivery
import MusicPart.Proofs.NoteOrder

/-!
# Routing

Delivering articulations rearranges notes and changes their channels and tags, and the channels only
where articulations are told apart by channel. Every event that is sent answers an articulation that
is wanted.
-/

namespace MusicPart.Articulator

open Note

/-- The second note is the first one, on a channel of the instrument's if it routes by channel, and
perhaps without its tag. -/
structure Routes (s : Articulator Rat) (a b : Note Rat) : Prop where
  start_eq : b.start = a.start
  duration_eq : b.duration = a.duration
  pitch_eq : b.pitch = a.pitch
  velocity_eq : b.velocity = a.velocity
  channel : b.channel = a.channel ∨ s.routesByChannel = true ∧ ∃ x, b.channel = s.channelOf x

variable (s : Articulator Rat)

theorem Routes.finish_eq {s : Articulator Rat} {a b : Note Rat} (h : s.Routes a b) :
    b.finish = a.finish := by
  rw [Note.finish_eq, Note.finish_eq, h.start_eq, h.duration_eq]

theorem Routes.channel_eq {s : Articulator Rat} {a b : Note Rat} (h : s.Routes a b)
    (hs : s.articulations.delivery ≠ .channel) : b.channel = a.channel := by
  rcases h.channel with h | ⟨hroutes, -⟩
  · exact h
  · exact absurd (by simpa [routesByChannel] using hroutes) hs

theorem channelOf_mem {α : Type} (s : Articulator α) (h : 1 ≤ s.channel ∧ s.channel ≤ 16)
    (a : Articulation) :
    1 ≤ s.channelOf a ∧ s.channelOf a ≤ 16 := by
  rw [channelOf]
  split
  · rename_i ha
    simpa only [Bool.and_eq_true, decide_eq_true_eq] using ha
  · exact h

theorem erase_routes (n : Note Rat) : s.Routes n (s.erase n) := by
  rw [erase]
  split
  · exact ⟨rfl, rfl, rfl, rfl, Or.inl rfl⟩
  · exact ⟨rfl, rfl, rfl, rfl, Or.inl rfl⟩

theorem routes_route (h : s.routesByChannel = true) {n m : Note Rat} (hnm : s.Routes n m)
    (a : Articulation) : s.Routes n (route (s.channelOf a) m) :=
  ⟨hnm.start_eq, hnm.duration_eq, hnm.pitch_eq, hnm.velocity_eq, Or.inr ⟨h, a, rfl⟩⟩

theorem carry_routes (h : s.routesByChannel = true) (channel : Option Int)
    (hc : ∀ c ∈ channel, ∃ x, c = s.channelOf x) {notes others : List (Note Rat)}
    (hn : List.Forall₂ s.Routes others notes) :
    List.Forall₂ s.Routes others (s.carry channel notes) := by
  induction hn generalizing channel with
  | nil => exact .nil
  | @cons a n as notes han _ ih =>
      rw [carry]
      generalize hnext : (((s.articulations.find? n.tag).filter (fun _ => isTagged n)).map
        s.channelOf).or channel = next
      have hnext : ∀ c ∈ next, ∃ x, c = s.channelOf x := by
        intro c hcn
        rw [← hnext] at hcn
        rcases Option.or_eq_some_iff.mp hcn with hx | ⟨-, hx⟩
        · obtain ⟨x, -, rfl⟩ := Option.map_eq_some_iff.mp hx
          exact ⟨x, rfl⟩
        · exact hc c hx
      refine .cons ?_ (ih next hnext)
      cases next with
      | none => exact han
      | some c =>
          obtain ⟨x, rfl⟩ := hnext c rfl
          exact s.routes_route h han x

theorem reroute_routes {before notes : List (Note Rat)} (hn : List.Forall₂ s.Routes before notes)
    (a : Articulation) : List.Forall₂ s.Routes before
      (if s.routesByChannel then notes.map (route (s.channelOf a)) else notes) := by
  split
  · rename_i h
    rw [List.forall₂_map_right_iff]
    exact hn.imp fun _ _ hab => s.routes_route h hab a
  · exact hn

theorem byTimeline_routes {before notes : List (Note Rat)}
    (hn : List.Forall₂ s.Routes before notes) (timeline : List (ArticulationChange Rat)) :
    List.Forall₂ s.Routes before (s.byTimeline notes timeline).1 := by
  rw [byTimeline]
  simp only
  split
  · exact s.reroute_routes hn _
  · exact hn

/-- Rearranging the second notes of some pairs rearranges the pairs. -/
theorem exists_perm_forall₂ {β : Type} {R : β → β → Prop} {xs ys zs : List β}
    (h : List.Forall₂ R xs ys) (hp : ys.Perm zs) :
    ∃ ws : List β, ws.Perm xs ∧ List.Forall₂ R ws zs := by
  have hcomp : Relation.Comp (List.Forall₂ R) List.Perm xs zs := ⟨ys, h, hp⟩
  rw [List.forall₂_comp_perm_eq_perm_comp_forall₂] at hcomp
  obtain ⟨ws, hws, hf⟩ := hcomp
  exact ⟨ws, hws.symm, hf⟩

/-- Up to their order, the notes that are delivered are the given ones on new channels. -/
theorem resolve_routes (notes : List (Note Rat)) (timeline : List (ArticulationChange Rat))
    (general : Text) : ∃ before : List (Note Rat), before.Perm notes ∧
      List.Forall₂ s.Routes before (s.resolve notes timeline general).notes := by
  have herased : List.Forall₂ s.Routes notes (notes.map s.erase) := by
    rw [List.forall₂_map_right_iff, List.forall₂_same]
    exact fun n _ => s.erase_routes n
  rw [resolve]
  split
  · exact ⟨notes, .rfl, s.byTimeline_routes herased timeline⟩
  · split
    · obtain ⟨before, hperm, hsorted⟩ := exists_perm_forall₂ herased (sortByStart_perm _).symm
      refine ⟨before, hperm, ?_⟩
      change List.Forall₂ _ _ (if s.routesByChannel then _ else _)
      split
      · rename_i h
        exact s.carry_routes h none (by simp) hsorted
      · exact hsorted
    · split
      · exact ⟨notes, .rfl, herased⟩
      · split
        · exact ⟨notes, .rfl, herased⟩
        · exact ⟨notes, .rfl, s.reroute_routes herased _⟩

/-! ### Events -/

section Events

variable {α : Type} [Quantity α] {s : Articulator α} {notes : List (Note α)}
  {wanted : List (Articulation × α)} {label : Option Text} {unknown : Nat}

theorem exists_of_mem_held {ks : List (Keyswitch α)} {k : Keyswitch α} (h : k ∈ s.held ks) :
    ∃ l ∈ ks, k = { l with duration := k.duration } := by
  induction ks with
  | nil => exact absurd h List.not_mem_nil
  | cons l ks ih =>
      rcases List.mem_cons.mp h with rfl | h
      · exact ⟨l, List.mem_cons_self, rfl⟩
      · obtain ⟨m, hm, hkm⟩ := ih h
        exact ⟨m, List.mem_cons_of_mem l hm, hkm⟩

/-- Every keyswitch answers a wanted articulation, perhaps held longer than it was sent. -/
theorem exists_signal_of_keyswitch {k : Keyswitch α}
    (h : k ∈ (s.assemble notes wanted label unknown).keyswitches) :
    ∃ w ∈ wanted, ∃ e, s.signal? w.1 w.2 = some (.keyswitch e) ∧
      k = { e with duration := k.duration } := by
  have hsent {e : Keyswitch α} (he : e ∈ (wanted.filterMap fun w =>
      s.signal? w.1 w.2).filterMap Signal.keyswitch?) :
      ∃ w ∈ wanted, s.signal? w.1 w.2 = some (.keyswitch e) := by
    obtain ⟨x, hx, hxe⟩ := List.mem_filterMap.mp he
    obtain ⟨w, hw, hwx⟩ := List.mem_filterMap.mp hx
    cases x with
    | keyswitch e => cases hxe; exact ⟨w, hw, hwx⟩
    | control e => exact nomatch hxe
    | program e => exact nomatch hxe
  rw [assemble] at h
  dsimp only at h
  split at h
  · obtain ⟨e, he, hke⟩ := exists_of_mem_held h
    obtain ⟨w, hw, hwe⟩ := hsent ((List.mergeSort_perm _ _).mem_iff.mp he)
    exact ⟨w, hw, e, hwe, hke⟩
  · obtain ⟨w, hw, hwk⟩ := hsent h
    exact ⟨w, hw, k, hwk, rfl⟩

theorem exists_signal_of_control {c : ControlChange α}
    (h : c ∈ (s.assemble notes wanted label unknown).controls) :
    ∃ w ∈ wanted, s.signal? w.1 w.2 = some (.control c) := by
  obtain ⟨x, hx, hxc⟩ := List.mem_filterMap.mp h
  obtain ⟨w, hw, hwx⟩ := List.mem_filterMap.mp hx
  cases x with
  | keyswitch e => exact nomatch hxc
  | control e => cases hxc; exact ⟨w, hw, hwx⟩
  | program e => exact nomatch hxc

theorem exists_signal_of_program {p : ProgramChange α}
    (h : p ∈ (s.assemble notes wanted label unknown).programs) :
    ∃ w ∈ wanted, s.signal? w.1 w.2 = some (.program p) := by
  obtain ⟨x, hx, hxp⟩ := List.mem_filterMap.mp h
  obtain ⟨w, hw, hwx⟩ := List.mem_filterMap.mp hx
  cases x with
  | keyswitch e => exact nomatch hxp
  | control e => exact nomatch hxp
  | program e => cases hxp; exact ⟨w, hw, hwx⟩

end Events

end MusicPart.Articulator
