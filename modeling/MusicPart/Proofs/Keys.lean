import MusicPart.Key
import MusicPart.Proofs.Searches

/-!
# What a key is named for

Roots that no scale holds are named for the most frequent of them, which depends on their number and
order. Roots that a scale holds are named for the lowest tonic of such a scale, and so it does not
matter how often and in which order they come.
-/

namespace MusicPart.Key

open Text Pitch

/-! ### Scales -/

/-- The classes of the roots that stand for chords. -/
def heard (roots : List Int) : List Int := (roots.filter (0 ≤ ·)).map classOf

/-- A scale on a tonic holds every class. -/
def Fits (scale : List Int) (tonic : Nat) (classes : List Int) : Prop :=
  ∀ c ∈ classes, ∃ degree ∈ scale, classOf (tonic + degree) = c

/-- The tonics whose major or natural minor scale holds every class. -/
def tonics (classes : List Int) : Set Nat :=
  {tonic | tonic < 12 ∧ (Fits major tonic classes ∨ Fits naturalMinor tonic classes)}

/-- A class is the most frequent one, and was heard before all others that are as frequent. -/
structure Leads (classes : List Int) (c : Int) : Prop where
  exists_eq : ∃ before after, classes = before ++ c :: after ∧
    ∀ d ∈ before, classes.count d < classes.count c
  count_le : ∀ d ∈ classes, classes.count d ≤ classes.count c

/-- The label of the key in which classes are heard. -/
inductive Tells (classes : List Int) : Text → Prop
  | unknown (h : classes = []) : Tells classes "unknown"
  | major {tonic : Nat} (hne : classes ≠ []) (htonic : IsLeast (tonics classes) tonic)
      (hmajor : Fits major tonic classes) : Tells classes (className tonic ++ " major")
  | minor {tonic : Nat} (hne : classes ≠ []) (htonic : IsLeast (tonics classes) tonic)
      (hmajor : ¬Fits Key.major tonic classes) : Tells classes (className tonic ++ " minor")
  | estimated {c : Int} (hnone : tonics classes = ∅) (hleads : Leads classes c) :
      Tells classes (className c ++ " (estimated)")

theorem holds_iff {scale : List Int} {tonic : Nat} {classes : List Int} :
    holds scale tonic classes = true ↔ Fits scale tonic classes := by
  simp [holds, Fits]

/-- The label of a tonic one of whose scales holds every class. -/
def labelOn? (classes : List Int) (tonic : Nat) : Option Text :=
  if holds major tonic classes then some (className tonic ++ " major")
  else if holds naturalMinor tonic classes then some (className tonic ++ " minor")
  else none

theorem labelOn?_eq_some_iff {classes : List Int} {tonic : Nat} {label : Text} :
    labelOn? classes tonic = some label ↔
      Fits major tonic classes ∧ className tonic ++ " major" = label ∨
        (¬Fits major tonic classes ∧ Fits naturalMinor tonic classes) ∧
          className tonic ++ " minor" = label := by
  rw [labelOn?, ← holds_iff, ← holds_iff]
  generalize className tonic ++ ofString " major" = majorLabel
  generalize className tonic ++ ofString " minor" = minorLabel
  split_ifs with hmajor hminor
  · simp [hmajor]
  · simp [hmajor, hminor]
  · simp [hmajor, hminor]

theorem setOf_isSome_labelOn? (classes : List Int) :
    {tonic | tonic < 12 ∧ (labelOn? classes tonic).isSome = true} = tonics classes := by
  ext tonic
  rw [Set.mem_ofPred_eq, tonics, Set.mem_ofPred_eq, labelOn?, ← holds_iff, ← holds_iff]
  split_ifs with hmajor hminor
  · simp [hmajor]
  · simp [hminor]
  · simp [hmajor, hminor]

theorem fitting?_eq_some_iff {classes : List Int} {label : Text} : fitting? classes = some label ↔
    ∃ tonic, IsLeast (tonics classes) tonic ∧ labelOn? classes tonic = some label := by
  rw [← setOf_isSome_labelOn?]
  exact findSome?_range_eq_some_iff

theorem fitting?_eq_none_iff {classes : List Int} :
    fitting? classes = none ↔ tonics classes = ∅ := by
  rw [← setOf_isSome_labelOn?, Set.eq_empty_iff_forall_notMem]
  change (List.range 12).findSome? (labelOn? classes) = none ↔ _
  simp [List.findSome?_eq_none_iff]

/-! ### The most frequent class -/

theorem mostFrequent_concat (all : List Int) (c : Int) (rest : List Int) (d : Int) :
    mostFrequent all c (rest ++ [d]) =
      if all.count (mostFrequent all c rest) < all.count d then d
      else mostFrequent all c rest := by
  rw [mostFrequent, List.foldl_append]
  rfl

theorem mostFrequent_spec (all : List Int) (c : Int) (rest : List Int) :
    (∃ before after, c :: rest = before ++ mostFrequent all c rest :: after ∧
      ∀ d ∈ before, all.count d < all.count (mostFrequent all c rest)) ∧
    ∀ d ∈ c :: rest, all.count d ≤ all.count (mostFrequent all c rest) := by
  induction rest using List.reverseRecOn with
  | nil => exact ⟨⟨[], [], rfl, nofun⟩, by simp [mostFrequent]⟩
  | append_singleton rest d ih =>
      obtain ⟨⟨before, after, heq, hbefore⟩, hle⟩ := ih
      rw [mostFrequent_concat, ← List.cons_append]
      split_ifs with hlt
      · refine ⟨⟨c :: rest, [], rfl, fun e he => (hle e he).trans_lt hlt⟩, fun e he => ?_⟩
        rcases List.mem_append.mp he with he | he
        · exact (hle e he).trans hlt.le
        · rw [List.mem_singleton.mp he]
      · refine ⟨⟨before, after ++ [d], by rw [heq, List.append_assoc]; rfl, hbefore⟩,
          fun e he => ?_⟩
        rcases List.mem_append.mp he with he | he
        · exact hle e he
        · rw [List.mem_singleton.mp he]
          exact not_lt.mp hlt

theorem Leads.unique {classes : List Int} {c d : Int} (hc : Leads classes c)
    (hd : Leads classes d) : c = d := by
  obtain ⟨before, after, hclasses, hbefore⟩ := hc.exists_eq
  obtain ⟨before', after', hclasses', hbefore'⟩ := hd.exists_eq
  -- Neither was heard before the other, for what comes first is less frequent.
  have hc' : c ∉ before' := fun hmem =>
    (hbefore' c hmem).not_ge (hc.count_le d (by simp [hclasses']))
  have hd' : d ∉ before := fun hmem =>
    (hbefore d hmem).not_ge (hd.count_le c (by simp [hclasses]))
  rcases List.append_eq_append_iff.mp (hclasses.symm.trans hclasses') with
    ⟨between, rfl, hafter⟩ | ⟨between, rfl, hafter⟩
  · cases between with
    | nil => exact (List.cons.inj hafter).1
    | cons e between =>
        rw [(List.cons.inj hafter).1] at hc'
        simp at hc'
  · cases between with
    | nil => exact (List.cons.inj hafter).1.symm
    | cons e between =>
        rw [(List.cons.inj hafter).1] at hd'
        simp at hd'

theorem leads_mostFrequent (c : Int) (rest : List Int) :
    Leads (c :: rest) (mostFrequent (c :: rest) c rest) where
  exists_eq := (mostFrequent_spec (c :: rest) c rest).1
  count_le := (mostFrequent_spec (c :: rest) c rest).2

/-! ### Labels -/

theorem ofRoots_of_nil {roots : List Int} (h : heard roots = []) :
    ofRoots roots = ofString "unknown" := by
  rw [heard] at h
  rw [ofRoots, h]

theorem ofRoots_of_cons {roots : List Int} {c : Int} {rest : List Int}
    (h : heard roots = c :: rest) : ofRoots roots = (fitting? (c :: rest)).getD
      (className (mostFrequent (c :: rest) c rest) ++ " (estimated)") := by
  rw [heard] at h
  rw [ofRoots, h]

theorem tells_ofRoots (roots : List Int) : Tells (heard roots) (ofRoots roots) := by
  cases hclasses : heard roots with
  | nil =>
      rw [ofRoots_of_nil hclasses]
      exact .unknown rfl
  | cons c rest =>
      rw [ofRoots_of_cons hclasses]
      cases hfitting : fitting? (c :: rest) with
      | none =>
          exact .estimated (fitting?_eq_none_iff.mp hfitting) (leads_mostFrequent c rest)
      | some label =>
          obtain ⟨tonic, htonic, hlabel⟩ := fitting?_eq_some_iff.mp hfitting
          rcases labelOn?_eq_some_iff.mp hlabel with ⟨hmajor, rfl⟩ | ⟨⟨hmajor, -⟩, rfl⟩
          · exact .major (List.cons_ne_nil c rest) htonic hmajor
          · exact .minor (List.cons_ne_nil c rest) htonic hmajor

theorem ofRoots_of_labelOn? {roots : List Int} {tonic : Nat} {label : Text} (hne : heard roots ≠ [])
    (htonic : IsLeast (tonics (heard roots)) tonic)
    (hlabel : labelOn? (heard roots) tonic = some label) : ofRoots roots = label := by
  obtain ⟨c, rest, hclasses⟩ := List.exists_cons_of_ne_nil hne
  rw [hclasses] at htonic hlabel
  rw [ofRoots_of_cons hclasses, fitting?_eq_some_iff.mpr ⟨tonic, htonic, hlabel⟩]
  rfl

theorem Tells.eq_ofRoots {roots : List Int} {label : Text} (h : Tells (heard roots) label) :
    ofRoots roots = label := by
  cases h with
  | unknown hnil => exact ofRoots_of_nil hnil
  | major hne htonic hmajor =>
      exact ofRoots_of_labelOn? hne htonic (labelOn?_eq_some_iff.mpr (.inl ⟨hmajor, rfl⟩))
  | minor hne htonic hmajor =>
      have hminor := htonic.1.2.resolve_left hmajor
      exact ofRoots_of_labelOn? hne htonic (labelOn?_eq_some_iff.mpr (.inr ⟨⟨hmajor, hminor⟩, rfl⟩))
  | estimated hnone hleads =>
      obtain ⟨before, after, hclasses, -⟩ := hleads.exists_eq
      obtain ⟨c, rest, hcons⟩ := List.exists_cons_of_ne_nil (by simp [hclasses] : heard roots ≠ [])
      rw [hcons] at hnone hleads
      rw [ofRoots_of_cons hcons, fitting?_eq_none_iff.mpr hnone,
        hleads.unique (leads_mostFrequent c rest)]
      rfl

/-! ### Roots that are repeated or come in another order -/

section Members

variable {roots others : List Int} (h : ∀ r, r ∈ others ↔ r ∈ roots)

include h

theorem mem_heard_iff (c : Int) : c ∈ heard others ↔ c ∈ heard roots := by
  simp only [heard, List.mem_map, List.mem_filter, h]

theorem fits_congr (scale : List Int) (tonic : Nat) :
    Fits scale tonic (heard others) ↔ Fits scale tonic (heard roots) := by
  simp only [Fits, mem_heard_iff h]

theorem tonics_congr : tonics (heard others) = tonics (heard roots) := by
  simp only [tonics, fits_congr h]

theorem heard_ne_nil (hne : heard roots ≠ []) : heard others ≠ [] := by
  obtain ⟨c, hc⟩ := List.exists_mem_of_ne_nil _ hne
  exact List.ne_nil_of_mem ((mem_heard_iff h c).mpr hc)

end Members

/-- A label of a scale ends with the name of its mode. -/
def IsModal (label : Text) : Prop :=
  ∃ tonic : Nat, label = className tonic ++ " major" ∨ label = className tonic ++ " minor"

theorem IsModal.getLast? {label : Text} (h : IsModal label) :
    label.getLast? = some (byte 'r') := by
  obtain ⟨tonic, rfl | rfl⟩ := h
  · rw [List.getLast?_append]; rfl
  · rw [List.getLast?_append]; rfl

/-- The label of some roots is unknown if none of them stands for a chord, and else it is that of
the lowest tonic with a scale for all of them, its major scale first; where there is none it is that
of the class that leads. A label of a scale depends on no more than which roots there are. -/
theorem ofRoots_eq_iff (roots : List Int) :
    (∀ label, ofRoots roots = label ↔ Tells (heard roots) label) ∧
    ∀ others : List Int, (∀ r, r ∈ others ↔ r ∈ roots) → IsModal (ofRoots roots) →
      ofRoots others = ofRoots roots := by
  refine ⟨fun label => ⟨fun h => h ▸ tells_ofRoots roots, Tells.eq_ofRoots⟩, ?_⟩
  intro others hmem hmodal
  have hlast := hmodal.getLast?
  have htells := tells_ofRoots roots
  generalize ofRoots roots = label at htells hlast
  apply Tells.eq_ofRoots
  cases htells with
  | unknown => exact absurd hlast (by decide)
  | major hne htonic hmajor =>
      rw [← tonics_congr hmem] at htonic
      exact .major (heard_ne_nil hmem hne) htonic ((fits_congr hmem _ _).mpr hmajor)
  | minor hne htonic hmajor =>
      rw [← tonics_congr hmem] at htonic
      exact .minor (heard_ne_nil hmem hne) htonic ((fits_congr hmem _ _).not.mpr hmajor)
  | @estimated c =>
      have hname : (className c ++ ofString " (estimated)").getLast? = some (byte ')') := by
        rw [List.getLast?_append]
        rfl
      rw [hname] at hlast
      exact absurd hlast (by decide)

/-- The roots of a minor key, and the same roots in another order and with repetitions. -/
def lament : List Int := [0, 10, -1, 8, 7]

def lamentAgain : List Int := [7, 8, 7, 0, 10, -1, 0]

theorem lamentAgain_ofRoots : (∀ r, r ∈ lamentAgain ↔ r ∈ lament) ∧ IsModal (ofRoots lament) ∧
    ofRoots lamentAgain = ofRoots lament := by
  have hmem : ∀ r, r ∈ lamentAgain ↔ r ∈ lament := by
    intro r
    simp only [lamentAgain, lament, List.mem_cons, List.not_mem_nil, or_false]
    omega
  have hmodal : IsModal (ofRoots lament) := ⟨0, .inr (by decide)⟩
  exact ⟨hmem, hmodal, (ofRoots_eq_iff lament).2 lamentAgain hmem hmodal⟩

end MusicPart.Key
