import MusicPart.Proofs.EventTimes
import MusicPart.Proofs.TimeOrder

/-!
# Kept tempo markers

Of the markers in order of time the first one is kept, and then each that is far enough after the
one kept last, as long as there is room. So a marker that is not kept is too near after one that is,
or comes when there is no room left.
-/

namespace MusicPart.TempoMarker

open Json (Value)

variable {length : Rat} {raw : Value Rat} {m : TempoMarker Rat} {markers : List (TempoMarker Rat)}

/-! ### What a marker sets -/

/-- A marker sets a tempo or a meter, and what it sets is within bounds. -/
structure Sound (m : TempoMarker Rat) : Prop where
  sets : m.bpm ≠ none ∨ m.meter ≠ none
  bpm : ∀ x ∈ m.bpm, 30 ≤ x ∧ x ≤ 240
  meter : ∀ x ∈ m.meter, (1 ≤ x.beats ∧ x.beats ≤ 32) ∧ x.unit ∈ [1, 2, 4, 8, 16, 32]

theorem bpm?_mem {x : Rat} (h : bpm? raw = some x) : 30 ≤ x ∧ x ≤ 240 := by
  obtain ⟨v, -, h⟩ := Option.bind_eq_some_iff.mp h
  obtain ⟨y, -, h⟩ := Option.bind_eq_some_iff.mp h
  obtain rfl := Option.some_inj.mp h
  obtain ⟨hlow, hhigh⟩ := Exact.clamp_mem y (show (30.0 : Rat) ≤ 240.0 by norm_num)
  have hscale : (0 : Rat) < 1000.0 := by norm_num
  have hleast : Quantity.roundTo (1000.0 : Rat) 30.0 = 30 := by decide +kernel
  have hgreatest : Quantity.roundTo (1000.0 : Rat) 240.0 = 240 := by decide +kernel
  constructor
  · exact hleast ▸ (Exact.roundTo_mem hscale (by norm_num) hlow).2
  · exact hgreatest ▸ (Exact.roundTo_mem hscale (le_trans (by norm_num) hlow) hhigh).2

theorem meter?_mem {x : Meter} (h : meter? raw = some x) :
    (1 ≤ x.beats ∧ x.beats ≤ 32) ∧ x.unit ∈ [1, 2, 4, 8, 16, 32] := by
  obtain ⟨y, -, h⟩ := Option.bind_eq_some_iff.mp h
  obtain ⟨hunit, h⟩ := Option.ite_none_right_eq_some.mp h
  obtain rfl := Option.some_inj.mp h
  exact ⟨Midi.clamp_mem y.beats (by decide), List.contains_iff_mem.mp hunit⟩

theorem read?_sound (h : read? length raw = some m) : m.Sound := by
  obtain ⟨v, -, h⟩ := Option.bind_eq_some_iff.mp h
  obtain ⟨time, -, h⟩ := Option.bind_eq_some_iff.mp h
  obtain ⟨hsets, h⟩ := Option.ite_none_left_eq_some.mp h
  obtain rfl := Option.some_inj.mp h
  refine ⟨?_, fun x => bpm?_mem, fun x => meter?_mem⟩
  rw [Bool.and_eq_true, Option.isNone_iff_eq_none, Option.isNone_iff_eq_none] at hsets
  exact not_and_or.mp hsets

/-! ### One marker after another -/

theorem minGap_eq : (minGap : Rat) = 1 / 4 := by
  rw [minGap]
  norm_num

/-- A marker is far enough after the time of the one kept last, if any was kept. -/
def IsFar (last : Option Rat) (m : TempoMarker Rat) : Prop :=
  ∀ t ∈ last, 1 / 4 - 1 / 10 ^ 9 ≤ m.time - t

/-- A marker is too near after a time. -/
structure IsNear (t : Rat) (m : TempoMarker Rat) : Prop where
  le : t ≤ m.time
  lt : m.time - t < 1 / 4 - 1 / 10 ^ 9

variable {last : Option Rat}

theorem isFar_iff :
    (last.all fun t => decide (minGap - Note.slack ≤ m.time - t)) = true ↔ IsFar last m := by
  cases last <;> simp [IsFar, minGap_eq]

theorem isFar_none (m : TempoMarker Rat) : IsFar none m := fun _ h => nomatch h

theorem exists_isNear (h : ¬IsFar last m) (hle : ∀ t ∈ last, t ≤ m.time) :
    ∃ t ∈ last, IsNear t m := by
  simp only [IsFar, not_forall, not_le] at h
  obtain ⟨t, ht, hlt⟩ := h
  exact ⟨t, ht, hle t ht, hlt⟩

theorem thin_cons_of_isFar (h : IsFar last m) (room : Nat) (markers : List (TempoMarker Rat)) :
    thin (room + 1) last (m :: markers) = m :: thin room (some m.time) markers := by
  rw [thin]
  exact if_pos (isFar_iff.mpr h)

theorem thin_cons_of_not_isFar (h : ¬IsFar last m) (room : Nat)
    (markers : List (TempoMarker Rat)) :
    thin (room + 1) last (m :: markers) = thin (room + 1) last markers := by
  rw [thin]
  exact if_neg fun hall => h (isFar_iff.mp hall)

/-! ### Thinning -/

theorem length_thin_le (room : Nat) (last : Option Rat) (markers : List (TempoMarker Rat)) :
    (thin room last markers).length ≤ room := by
  induction markers generalizing room last with
  | nil => cases room <;> exact Nat.zero_le _
  | cons m markers ih =>
      cases room with
      | zero => exact le_rfl
      | succ room =>
          by_cases h : IsFar last m
          · rw [thin_cons_of_isFar h]
            exact Nat.succ_le_succ (ih room _)
          · rw [thin_cons_of_not_isFar h]
            exact ih (room + 1) last

/-- The first marker kept is far enough after the time before, and each other one after its
predecessor. -/
theorem isChain_thin (room : Nat) (last : Option Rat) (markers : List (TempoMarker Rat)) :
    (∀ m ∈ (thin room last markers).head?, IsFar last m) ∧
      (thin room last markers).IsChain fun a b => IsFar (some a.time) b := by
  induction markers generalizing room last with
  | nil => cases room <;> exact ⟨nofun, .nil⟩
  | cons m markers ih =>
      cases room with
      | zero => exact ⟨nofun, .nil⟩
      | succ room =>
          by_cases h : IsFar last m
          · rw [thin_cons_of_isFar h]
            obtain ⟨hhead, hchain⟩ := ih room (some m.time)
            refine ⟨fun x hx => ?_, List.isChain_cons.mpr ⟨hhead, hchain⟩⟩
            obtain rfl := Option.some_inj.mp hx
            exact h
          · rw [thin_cons_of_not_isFar h]
            exact ih (room + 1) last

/-- A kept marker and, next to it, those that are left out because of it. -/
abbrev Group := TempoMarker Rat × List (TempoMarker Rat)

def Group.members (g : Group) : List (TempoMarker Rat) := g.1 :: g.2

/-- Markers in order of time fall into those too near after the time before, a group for each marker
kept, and a rest for which there is no room. -/
theorem exists_groups (room : Nat) (last : Option Rat)
    (hsorted : markers.Pairwise fun a b => a.time ≤ b.time)
    (hlast : ∀ m ∈ markers, ∀ t ∈ last, t ≤ m.time) :
    ∃ (near : List (TempoMarker Rat)) (groups : List Group) (rest : List (TempoMarker Rat)),
      markers = near ++ (groups.flatMap Group.members ++ rest) ∧
        thin room last markers = groups.map (·.1) ∧
        (∀ m ∈ near, ∃ t ∈ last, IsNear t m) ∧
        (∀ g ∈ groups, ∀ m ∈ g.2, IsNear g.1.time m) ∧
        (rest ≠ [] → (thin room last markers).length = room) := by
  induction markers generalizing room last with
  | nil =>
      refine ⟨[], [], [], rfl, ?_, nofun, nofun, fun h => absurd rfl h⟩
      cases room <;> rfl
  | cons m markers ih =>
      obtain ⟨hm, htail⟩ := List.pairwise_cons.mp hsorted
      cases room with
      | zero => exact ⟨[], [], m :: markers, rfl, rfl, nofun, nofun, fun _ => rfl⟩
      | succ room =>
          by_cases hfar : IsFar last m
          · have hnext : ∀ x ∈ markers, ∀ t ∈ some m.time, t ≤ x.time := by
              rintro x hx t ⟨⟩
              exact hm x hx
            obtain ⟨near, groups, rest, hsplit, hkept, hnear, hgroups, hrest⟩ :=
              ih room (some m.time) htail hnext
            rw [thin_cons_of_isFar hfar]
            refine ⟨[], (m, near) :: groups, rest, ?_, ?_, nofun, ?_, fun h => ?_⟩
            · rw [hsplit, List.flatMap_cons, Group.members, List.nil_append, List.cons_append,
                List.cons_append, List.append_assoc]
            · rw [hkept, List.map_cons]
            · refine List.forall_mem_cons.mpr ⟨fun x hx => ?_, hgroups⟩
              obtain ⟨t, ⟨⟩, ht⟩ := hnear x hx
              exact ht
            · rw [List.length_cons, hrest h]
          · obtain ⟨near, groups, rest, hsplit, hkept, hnear, hgroups, hrest⟩ :=
              ih (room + 1) last htail fun x hx => hlast x (List.mem_cons_of_mem m hx)
            rw [thin_cons_of_not_isFar hfar]
            refine ⟨m :: near, groups, rest, ?_, hkept, ?_, hgroups, hrest⟩
            · rw [hsplit, List.cons_append]
            · refine List.forall_mem_cons.mpr ⟨?_, hnear⟩
              exact exists_isNear hfar (hlast m List.mem_cons_self)

/-- What is kept of some markers in order of time. -/
structure IsThinned (markers kept : List (TempoMarker Rat)) : Prop where
  sublist : kept.Sublist markers
  length_le : kept.length ≤ 8
  apart : kept.IsChain fun a b => 1 / 4 - 1 / 10 ^ 9 ≤ b.time - a.time
  increasing : kept.Pairwise fun a b => a.time < b.time
  first : kept.head? = markers.head?
  /-- A marker is kept, or is too near after one that is, or comes when there is no room. -/
  accounted : ∃ (groups : List Group) (rest : List (TempoMarker Rat)),
    markers = groups.flatMap Group.members ++ rest ∧ kept = groups.map (·.1) ∧
      (∀ g ∈ groups, ∀ m ∈ g.2, IsNear g.1.time m) ∧ (rest ≠ [] → kept.length = 8)

theorem isThinned_thin (h : markers.Pairwise fun a b => a.time ≤ b.time) :
    IsThinned markers (thin maxMarkers none markers) := by
  have hapart : (thin maxMarkers none markers).IsChain fun a b =>
      1 / 4 - 1 / 10 ^ 9 ≤ b.time - a.time :=
    (isChain_thin maxMarkers none markers).2.imp fun _ _ hfar => hfar _ rfl
  constructor
  case sublist => exact thin_sublist _ _ _
  case length_le => exact length_thin_le maxMarkers none markers
  case apart => exact hapart
  case increasing =>
    have : IsTrans (TempoMarker Rat) fun a b => a.time < b.time := ⟨fun _ _ _ => lt_trans⟩
    refine (hapart.imp fun a b hab => ?_).pairwise
    linarith
  case first =>
    cases markers with
    | nil => rfl
    | cons m markers =>
        rw [maxMarkers, thin_cons_of_isFar (isFar_none m), List.head?_cons, List.head?_cons]
  case accounted =>
    obtain ⟨near, groups, rest, hsplit, hkept, hnear, hgroups, hrest⟩ :=
      exists_groups maxMarkers none h fun _ _ _ ht => absurd ht (Option.not_mem_none _)
    have hnone : near = [] := List.eq_nil_iff_forall_not_mem.mpr fun x hx => by
      obtain ⟨t, ht, -⟩ := hnear x hx
      cases ht
    rw [hnone, List.nil_append] at hsplit
    exact ⟨groups, rest, hsplit, hkept, hgroups, hrest⟩

/-! ### All markers -/

/-- The markers that can be read are sorted by time and thinned. Each of those kept sets a tempo or
a meter within bounds, and the others are counted with the ones that cannot be read. -/
theorem normalize_isThinned (length : Rat) (raw : Value Rat) :
    let valid := raw.elements.filterMap (read? length)
    let thinned := normalize length raw
    (∃ sorted, SortedByTime time valid sorted ∧ IsThinned sorted thinned.markers) ∧
      (∀ m ∈ thinned.markers, m.Sound) ∧
      thinned.dropped + thinned.markers.length = raw.elements.length := by
  intro valid thinned
  have hsorted : SortedByTime time valid (sort valid) :=
    sortedByTime_mergeSort fun m _ => beq_self_eq_true m.time
  have hthinned : IsThinned (sort valid) thinned.markers :=
    isThinned_thin (hsorted.ordered.imp not_lt.mp)
  refine ⟨⟨sort valid, hsorted, hthinned⟩, fun m hm => ?_, ?_⟩
  · have hvalid := hsorted.perm.mem_iff.mp (hthinned.sublist.subset hm)
    obtain ⟨v, -, hv⟩ := List.mem_filterMap.mp hvalid
    exact read?_sound hv
  · have hkept : thinned.markers.length ≤ valid.length :=
      hthinned.sublist.length_le.trans hsorted.perm.length_eq.le
    have hvalid : valid.length ≤ raw.elements.length := List.length_filterMap_le _ _
    exact Nat.sub_add_cancel (hkept.trans hvalid)

end MusicPart.TempoMarker
