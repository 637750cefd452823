import MusicPart.Proofs.Conversions
import MusicPart.Proofs.EncodedValues
import MusicPart.Proofs.Retiming
import MusicPart.Proofs.Stages

/-!
# Tags in order

Tags and names of articulations are copied from a candidate, stripped of blanks or erased, and no
stage of a score writes another one. So they are in order if the candidate is.
-/

namespace MusicPart

open Json (Value)
open Json.Value (Encoded)
open Text.Utf8

variable {α : Type}

/-! ### Values that stand in others -/

theorem Json.Value.Encoded.of_occurs {v w : Value α} (h : Value.Occurs w v) (hv : Encoded v) :
    Encoded w := by
  induction h with
  | here => exact hv
  | element hmem _ ih => exact ih (hv.of_mem_elements hmem)
  | member hmem _ ih => exact ih (hv.of_mem_members hmem).2

/-- A text that may stand in a place. -/
theorem Json.Value.Encoded.isValid_textOr {o : Option (Value α)} (h : ∀ v ∈ o, Encoded v) :
    isValid ((o.bind Value.text?).getD []) = true := by
  cases o with
  | none => rfl
  | some v =>
      rw [Option.bind_some]
      cases ht : v.text? with
      | none => rfl
      | some t => exact (h v rfl).isValid_of_text? ht

/-! ### Tags -/

namespace Note

theorem isValid_tagOf {raw : Value α}
    (h : ∀ v, raw.first? ["articulation", "art"] = some v → Encoded v) :
    isValid (tagOf raw) = true := by
  have hblank (b : UInt8) : Text.isBlank b = true → b < 0x80 := by
    revert b
    exact Json.Literal.forall_byte (by decide +kernel)
  have hstrip (o : Option Text) : isValid ((o.map (Text.strip Text.isBlank)).getD []) =
      isValid (o.getD []) := by
    cases o with
    | none => rfl
    | some t => exact isValid_strip hblank t
  rw [tagOf, hstrip]
  exact Encoded.isValid_textOr h

theorem DrawnFrom.isValid_tag {xs ys : List (Note α)} (h : DrawnFrom xs ys)
    (hx : ∀ n ∈ xs, isValid n.tag = true) : ∀ n ∈ ys, isValid n.tag = true := by
  intro n hn
  obtain ⟨m, hm, hmn⟩ := h n hn
  rw [hmn]
  exact hx m hm

variable [Quantity α]

theorem tag_of_read? {m : Meter} {channel : Int} {raw : Value α} {n : Note α}
    (h : read? m channel raw = some n) : n.tag = tagOf raw := by
  obtain ⟨-, -, untimed, huntimed, hn⟩ := exists_untimed_of_read? h
  obtain ⟨_, -, huntimed⟩ := Option.bind_eq_some_iff.mp huntimed
  obtain ⟨_, -, huntimed⟩ := Option.bind_eq_some_iff.mp huntimed
  obtain ⟨_, -, huntimed⟩ := Option.bind_eq_some_iff.mp huntimed
  cases huntimed
  rw [hn]

theorem takeIn_isValid_tag {raws : List (Value α)}
    (h : ∀ raw ∈ raws, ∀ v, raw.first? ["articulation", "art"] = some v → Encoded v) (length : α)
    (m : Meter) (i : Instrument α) :
    ∀ n ∈ (takeIn length m i raws).notes, isValid n.tag = true := by
  have hbound : ∀ n ∈ (boundAll length i raws (raws.filterMap (read? m i.channel))).notes,
      isValid n.tag = true := by
    rw [boundAll_notes]
    intro n hn
    obtain ⟨k, hk, rfl⟩ := List.mem_map.mp hn
    obtain ⟨raw, hraw, hread⟩ := List.mem_filterMap.mp hk
    change isValid k.tag = true
    rw [tag_of_read? hread]
    exact isValid_tagOf (h raw hraw)
  rw [takeIn]
  split
  · dsimp only
    split
    · exact (monophonic_drawnFrom _).isValid_tag hbound
    · exact hbound
  · exact List.forall_mem_nil _

end Note

namespace Articulator

variable (s : Articulator α)

theorem isValid_labelOf {names : List Text} (h : ∀ t ∈ names, isValid t = true) :
    ∀ t ∈ labelOf names, isValid t = true := by
  intro t ht
  cases names with
  | nil => cases ht
  | cons name names =>
      rw [labelOf] at ht
      split at ht
      · cases ht
        decide
      · cases ht
        exact h t List.mem_cons_self

/-! Routing changes channels only. -/

theorem map_tag_reroute (channel : Int) (notes : List (Note α)) :
    (if s.routesByChannel then notes.map (route channel) else notes).map (·.tag) =
      notes.map (·.tag) := by
  split
  · rw [List.map_map]
    rfl
  · rfl

theorem map_tag_carry (channel : Option Int) (notes : List (Note α)) :
    (s.carry channel notes).map (·.tag) = notes.map (·.tag) := by
  induction notes generalizing channel with
  | nil => rfl
  | cons n notes ih =>
      rw [carry, List.map_cons, List.map_cons, ih]
      generalize (((s.articulations.find? n.tag).filter (fun _ => isTagged n)).map
        s.channelOf).or channel = next
      cases next <;> rfl

theorem map_tag_byTimeline (notes : List (Note α)) (timeline : List (ArticulationChange α)) :
    (s.byTimeline notes timeline).1.map (·.tag) = notes.map (·.tag) := by
  rw [byTimeline]
  dsimp only
  split
  · exact s.map_tag_reroute _ notes
  · rfl

theorem isValid_erase {n : Note α} (h : isValid n.tag = true) :
    isValid (s.erase n).tag = true := by
  rw [erase]
  split
  · rfl
  · exact h

end Articulator

/-- The tags of the notes and the label are in order. -/
structure Delivered.Encoded (d : Delivered α) : Prop where
  notes : ∀ t ∈ d.notes.map (·.tag), isValid t = true
  label : ∀ t ∈ d.label, isValid t = true

variable [Quantity α]

theorem Articulator.assemble_encoded (s : Articulator α) {notes : List (Note α)}
    (hnotes : ∀ t ∈ notes.map (·.tag), isValid t = true) {label : Option Text}
    (hlabel : ∀ t ∈ label, isValid t = true) (wanted : List (Articulation × α)) (unknown : Nat) :
    (s.assemble notes wanted label unknown).Encoded := ⟨hnotes, hlabel⟩

theorem Articulator.resolve_encoded (s : Articulator α) {notes : List (Note α)}
    (hnotes : ∀ n ∈ notes, isValid n.tag = true) {timeline : List (ArticulationChange α)}
    (htimeline : ∀ c ∈ timeline, isValid c.name = true) {general : Text}
    (hgeneral : isValid general = true) : (s.resolve notes timeline general).Encoded := by
  have herased : ∀ t ∈ (notes.map s.erase).map (·.tag), isValid t = true := by
    rw [List.map_map]
    intro t ht
    obtain ⟨n, hn, rfl⟩ := List.mem_map.mp ht
    exact s.isValid_erase (hnotes n hn)
  have hlabel : ∀ t ∈ some general, isValid t = true := fun t ht => Option.mem_some.mp ht ▸ hgeneral
  rw [resolve]
  split
  · have hrouted : ∀ t ∈ (s.byTimeline (notes.map s.erase) timeline).1.map (·.tag),
        isValid t = true := by
      rw [map_tag_byTimeline]
      exact herased
    refine s.assemble_encoded hrouted (isValid_labelOf fun t ht => ?_) _ _
    obtain ⟨c, hc, rfl⟩ := List.mem_map.mp ht
    exact htimeline c hc
  · split
    · have hsorted : ∀ t ∈ (Note.sortByStart (notes.map s.erase)).map (·.tag), isValid t = true :=
        fun t ht => herased t (((Note.sortByStart_perm _).map _).mem_iff.mp ht)
      refine s.assemble_encoded ?_ (isValid_labelOf ?_) _ _
      · split
        · rw [map_tag_carry]
          exact hsorted
        · exact hsorted
      · exact fun t ht => hsorted t (List.map_subset _ (List.filter_subset_self _) ht)
    · split
      · exact s.assemble_encoded herased (by simp) _ _
      · split
        · exact s.assemble_encoded herased hlabel _ _
        · refine s.assemble_encoded ?_ hlabel _ _
          rw [map_tag_reroute]
          exact herased

/-! ### Scores -/

theorem ArticulationChange.isValid_name {m : Meter} {raw : Value α} {c : ArticulationChange α}
    (h : Encoded raw) (hc : read? m raw = some c) : isValid c.name = true := by
  obtain ⟨name, hname, hc⟩ := Option.bind_eq_some_iff.mp hc
  split at hc
  · cases hc
  · obtain ⟨time, -, hc⟩ := Option.bind_eq_some_iff.mp hc
    cases hc
    obtain ⟨v, hv, ht⟩ := Option.bind_eq_some_iff.mp hname
    exact (h.of_first? hv).isValid_of_text? ht

namespace Score

variable {i : Instrument α} {s : Settings α} {candidate : Value α} (h : Encoded candidate)

include h

theorem takeIn_isValid_tag : ∀ n ∈ (takeIn i s candidate (Pattern.expand s.meter candidate)).notes,
    isValid n.tag = true := by
  have hraw : ∀ raw ∈ elementsOf "notes" candidate ++ (Pattern.expand s.meter candidate).notes,
      ∀ v, raw.first? ["articulation", "art"] = some v → Encoded v := by
    intro raw hraw v hv
    rcases List.mem_append.mp hraw with hraw | hraw
    · exact h.of_occurs ((Value.occurs_of_first? hv).trans (occurs_of_mem_elementsOf hraw))
    · exact h.of_occurs (Pattern.occurs_of_mem_expand hraw (by decide) hv)
  have hnotes := Note.takeIn_isValid_tag hraw s.span s.meter i
  rw [takeIn]
  dsimp only
  split
  · intro n hn
    rcases List.mem_append.mp hn with hn | hn
    · exact hnotes n hn
    · obtain ⟨-, _, _, _, _, _, rfl⟩ := Hit.exists_of_mem_takeIn hn
      rfl
  · exact hnotes

theorem phrased_isValid_tag : ∀ n ∈ (ofCandidate i s candidate).phrased.notes,
    isValid n.tag = true := by
  have htaken : ∀ n ∈ (ofCandidate i s candidate).taken.notes, isValid n.tag = true :=
    takeIn_isValid_tag h
  have hsnapped : ∀ n ∈ (ofCandidate i s candidate).snapped.notes, isValid n.tag = true := by
    obtain ⟨before, hperm, hmoves⟩ := snap_moves i s (ofCandidate i s candidate).taken.notes
    intro n hn
    obtain ⟨m, hm, hmn⟩ := Note.exists_mem_of_forall₂ hmoves hn
    rw [hmn.same]
    exact htaken m (hperm.mem_iff.mp hm)
  exact (Note.phrase_drawnFrom _ _ _ _ _).isValid_tag
    ((Note.separate_drawnFrom _).isValid_tag hsnapped)

theorem timeline_isValid_name : ∀ c ∈ (ofCandidate i s candidate).timeline,
    isValid c.name = true := by
  intro c hc
  obtain ⟨raw, hraw, hread⟩ := List.mem_filterMap.mp ((List.mergeSort_perm _ _).mem_iff.mp hc)
  have hencoded : Encoded raw := by
    cases hchanges : candidate.find? "articulation_changes" with
    | none =>
        rw [hchanges] at hraw
        exact absurd hraw List.not_mem_nil
    | some v =>
        rw [hchanges] at hraw
        exact (h.of_find? hchanges).of_mem_elements hraw
  exact ArticulationChange.isValid_name hencoded hread

theorem delivered_encoded : (ofCandidate i s candidate).delivered.Encoded := by
  have hgeneral : isValid (general candidate) = true :=
    Encoded.isValid_textOr fun _ hv => h.of_find? hv
  have htimeline : ∀ c ∈ (ofCandidate i s candidate).timeline, isValid c.name = true :=
    timeline_isValid_name h
  exact Articulator.resolve_encoded _ (phrased_isValid_tag h) htimeline hgeneral

end Score

end MusicPart
