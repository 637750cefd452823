import MusicPart.Proofs.Labels
import MusicPart.Proofs.Literals
import MusicPart.Proofs.Searches

/-!
# The tones of a label

What a label tells is read off its parts: the note that it begins with, the longest spelling of a
quality that stands behind this note, and the note behind the last slash. Every label that begins
with a note has tones, for no spelling at all is one of a major triad.
-/

namespace MusicPart

/-! ### Stripping -/

namespace Text

variable {p : UInt8 → Bool}

/-- A text is what is left of another one without the bytes at both ends that have a property. -/
structure Stripped (p : UInt8 → Bool) (t body : Text) : Prop where
  exists_eq : ∃ before after, t = before ++ (body ++ after) ∧ (∀ b ∈ before, p b = true) ∧
    ∀ b ∈ after, p b = true
  head : ∀ b ∈ body.head?, p b = false
  last : ∀ b ∈ body.getLast?, p b = false

theorem Stripped.strip_eq {t body : Text} (h : Stripped p t body) : strip p t = body := by
  obtain ⟨before, after, rfl, hbefore, hafter⟩ := h.exists_eq
  rw [strip, List.dropWhile_append_of_pos hbefore]
  by_cases hnil : body = []
  · have hdrop : after.dropWhile p = [] := List.dropWhile_eq_nil_iff.mpr hafter
    rw [hnil, List.nil_append, hdrop]
    rfl
  · have hhead : ∀ b ∈ (body ++ after).head?, p b = false := by
      rw [List.head?_append_of_ne_nil _ hnil]
      exact h.head
    have hlast : ∀ b ∈ body.reverse.head?, p b = false := by
      rw [List.head?_reverse]
      exact h.last
    have hreverse : ∀ b ∈ after.reverse, p b = true := fun b hb => hafter b (List.mem_reverse.mp hb)
    rw [dropWhile_eq_self_of_head hhead, dropEndWhile, List.reverse_append,
      List.dropWhile_append_of_pos hreverse, dropWhile_eq_self_of_head hlast, List.reverse_reverse]

theorem stripped_strip (p : UInt8 → Bool) (t : Text) : Stripped p t (strip p t) := by
  have hend (u : Text) : u = dropEndWhile p u ++ (u.reverse.takeWhile p).reverse := by
    rw [dropEndWhile, ← List.reverse_append, List.takeWhile_append_dropWhile, List.reverse_reverse]
  refine ⟨⟨t.takeWhile p, ((t.dropWhile p).reverse.takeWhile p).reverse, ?_, ?_, ?_⟩, ?_, ?_⟩
  · rw [strip, ← hend, List.takeWhile_append_dropWhile]
  · exact fun b hb => List.mem_takeWhile_imp hb
  · exact fun b hb => List.mem_takeWhile_imp (List.mem_reverse.mp hb)
  · intro b hb
    obtain ⟨rest, hrest⟩ := List.head?_eq_some_iff.mp hb
    have hdrop := hend (t.dropWhile p)
    rw [← strip, hrest, List.cons_append] at hdrop
    exact of_dropWhile_eq_cons hdrop
  · intro b hb
    rw [strip, dropEndWhile, List.getLast?_reverse] at hb
    obtain ⟨rest, hrest⟩ := List.head?_eq_some_iff.mp hb
    exact of_dropWhile_eq_cons hrest

/-! ### The last slash -/

theorem cutAtLast?_eq_some_iff {sep : UInt8} {t before after : Text} :
    cutAtLast? sep t = some (before, after) ↔ t = before ++ sep :: after ∧ sep ∉ after := by
  constructor
  · intro h
    obtain ⟨⟨front, back⟩, hcut, hreverse⟩ := Option.map_eq_some_iff.mp h
    cases hreverse
    obtain ⟨ht, hsep⟩ := cutAt?_eq_some_iff.mp hcut
    refine ⟨?_, fun hmem => hsep (List.mem_reverse.mp hmem)⟩
    rw [← List.reverse_reverse t, ht]
    simp
  · rintro ⟨rfl, hsep⟩
    exact cutAtLast?_append hsep before

theorem cutAtLast?_eq_none_iff {sep : UInt8} {t : Text} : cutAtLast? sep t = none ↔ sep ∉ t := by
  constructor
  · intro h hmem
    obtain ⟨after, before, ht, hsep⟩ := List.eq_append_cons_of_mem (List.mem_reverse.mpr hmem)
    have hcut : cutAtLast? sep t = some (before.reverse, after.reverse) := by
      refine cutAtLast?_eq_some_iff.mpr ⟨?_, fun hmem => hsep (List.mem_reverse.mp hmem)⟩
      rw [← List.reverse_reverse t, ht]
      simp
    rw [h] at hcut
    cases hcut
  · intro hsep
    by_contra h
    obtain ⟨⟨before, after⟩, hcut⟩ := Option.ne_none_iff_exists'.mp h
    exact hsep (by simp [(cutAtLast?_eq_some_iff.mp hcut).1])

end Text

/-! ### Notes -/

namespace Pitch

open Text

/-- The letters of notes. -/
def noteLetters : Text := "ABCDEFGabcdefg"

/-- A text begins with a note of a class: a letter with the accidental that follows it, if one
does. -/
inductive Begins : Text → Int → Text → Prop
  | natural {b : UInt8} {semitone : Int} {rest : Text} (h : (lowerByte b, semitone) ∈ letters)
      (hrest : ∀ c ∈ rest.head?, c ≠ byte '#' ∧ c ≠ byte 'b') :
      Begins (b :: rest) (classOf semitone) rest
  | sharp {b : UInt8} {semitone : Int} {rest : Text} (h : (lowerByte b, semitone) ∈ letters) :
      Begins (b :: byte '#' :: rest) (classOf (semitone + 1)) rest
  | flat {b : UInt8} {semitone : Int} {rest : Text} (h : (lowerByte b, semitone) ∈ letters) :
      Begins (b :: byte 'b' :: rest) (classOf (semitone - 1)) rest

theorem letter?_eq_some_iff {b : UInt8} {semitone : Int} :
    letter? b = some semitone ↔ (lowerByte b, semitone) ∈ letters := by
  constructor
  · intro h
    obtain ⟨⟨c, s⟩, hfind, rfl⟩ := Option.map_eq_some_iff.mp h
    have hc := List.find?_some hfind
    rw [← eq_of_beq hc]
    exact List.mem_of_find?_eq_some hfind
  · intro h
    simp only [letters, List.mem_cons, Prod.mk.injEq, List.not_mem_nil, or_false] at h
    rcases h with ⟨hb, rfl⟩ | ⟨hb, rfl⟩ | ⟨hb, rfl⟩ | ⟨hb, rfl⟩ | ⟨hb, rfl⟩ | ⟨hb, rfl⟩ |
      ⟨hb, rfl⟩ <;>
    · rw [letter?, hb]
      rfl

theorem isSome_letter?_iff (b : UInt8) : (letter? b).isSome = true ↔ b ∈ noteLetters := by
  revert b
  exact Json.Literal.forall_byte (by decide +kernel)

theorem startClass?_cons (b : UInt8) (t : Text) : startClass? (b :: t) =
    (letter? b).map fun semitone => (classOf (semitone + (accidental t).1), (accidental t).2) := by
  rw [startClass?, degree?]
  cases letter? b <;> rfl

theorem accidental_eq_self {t : Text} (h : ∀ b ∈ t.head?, b ≠ byte '#' ∧ b ≠ byte 'b') :
    accidental t = (0, t) := by
  cases t with
  | nil => rfl
  | cons b t =>
      obtain ⟨hsharp, hflat⟩ := h b rfl
      simp [accidental, hsharp, hflat]

theorem startClass?_eq_some_iff {t rest : Text} {c : Int} :
    startClass? t = some (c, rest) ↔ Begins t c rest := by
  constructor
  · intro h
    cases t with
    | nil => cases h
    | cons b t =>
        rw [startClass?_cons] at h
        obtain ⟨semitone, hletter, h⟩ := Option.map_eq_some_iff.mp h
        cases h
        have hletter := letter?_eq_some_iff.mp hletter
        by_cases hnatural : ∀ b ∈ t.head?, b ≠ byte '#' ∧ b ≠ byte 'b'
        · rw [accidental_eq_self hnatural, add_zero]
          exact .natural hletter hnatural
        · cases t with
          | nil => exact absurd nofun hnatural
          | cons a t =>
              rw [accidental]
              split_ifs with hsharp hflat
              · rw [eq_of_beq hsharp]
                exact .sharp hletter
              · rw [eq_of_beq hflat]
                exact .flat hletter
              · refine absurd (fun c hc => ?_) hnatural
                cases hc
                exact ⟨fun h => hsharp (beq_iff_eq.mpr h), fun h => hflat (beq_iff_eq.mpr h)⟩
  · intro h
    cases h with
    | natural h hrest =>
        rw [startClass?_cons, letter?_eq_some_iff.mpr h, accidental_eq_self hrest, Option.map_some,
          add_zero]
    | sharp h =>
        rw [startClass?_cons, letter?_eq_some_iff.mpr h]
        rfl
    | flat h =>
        rw [startClass?_cons, letter?_eq_some_iff.mpr h]
        rfl

theorem isSome_startClass?_iff {t : Text} :
    (startClass? t).isSome = true ↔ ∃ b rest, t = b :: rest ∧ b ∈ noteLetters := by
  cases t with
  | nil => simp [startClass?, degree?]
  | cons b t => simp [startClass?_cons, isSome_letter?_iff]

theorem classOf_range (pitch : Int) : 0 ≤ classOf pitch ∧ classOf pitch < 12 := by
  rw [classOf]
  omega

theorem Begins.range {t rest : Text} {c : Int} (h : Begins t c rest) : 0 ≤ c ∧ c < 12 := by
  cases h <;> exact classOf_range _

end Pitch

/-! ### Qualities -/

namespace Quality

/-- The first quality of the table with a suffix. -/
def Names (suffix : Text) (q : Quality) : Prop :=
  ∃ before after, all = before ++ q :: after ∧ q.suffix = suffix ∧ ∀ p ∈ before, p.suffix ≠ suffix

/-- A text is a suffix of the table or an alias of one. -/
inductive Spells (t : Text) (q : Quality) : Prop
  | suffix (h : Names t q)
  | other {suffix : Text} (halias : (t, suffix) ∈ aliases) (h : Names suffix q)

/-- A spelling of a quality that no longer spelling at the start of a text goes beyond. -/
structure Longest (t s : Text) (q : Quality) : Prop where
  starts : s <+: t
  spells : Spells s q
  length_le {u : Text} {r : Quality} : u <+: t → Spells u r → u.length ≤ s.length

theorem ofSuffix?_eq_some_iff {suffix : Text} {q : Quality} :
    ofSuffix? suffix = some q ↔ Names suffix q := by
  rw [ofSuffix?, List.find?_eq_some_iff_append, Names]
  constructor
  · rintro ⟨hq, before, after, hall, hbefore⟩
    exact ⟨before, after, hall, eq_of_beq hq, fun p hp => by simpa using hbefore p hp⟩
  · rintro ⟨before, after, hall, hq, hbefore⟩
    exact ⟨beq_iff_eq.mpr hq, before, after, hall, fun p hp => by simpa using hbefore p hp⟩

/-- No alias is a suffix or another alias. -/
theorem alias_spec : ∀ a ∈ aliases, ofSuffix? a.1 = none ∧ aliases.find? (·.1 == a.1) = some a := by
  decide +kernel

theorem spelled?_eq_some_iff {t : Text} {q : Quality} : spelled? t = some q ↔ Spells t q := by
  rw [spelled?]
  constructor
  · intro h
    obtain h | ⟨-, h⟩ := (Option.orElse_eq_some _ _ _).mp h
    · exact .suffix (ofSuffix?_eq_some_iff.mp h)
    · obtain ⟨a, ha, h⟩ := Option.bind_eq_some_iff.mp h
      have ht := List.find?_some ha
      rw [← eq_of_beq ht]
      exact .other (List.mem_of_find?_eq_some ha) (ofSuffix?_eq_some_iff.mp h)
  · intro h
    cases h with
    | suffix h => rw [ofSuffix?_eq_some_iff.mpr h]; rfl
    | other ha h =>
        obtain ⟨hnone, hfind⟩ := alias_spec _ ha
        rw [hnone, hfind]
        exact ofSuffix?_eq_some_iff.mpr h

theorem exists_longest_of_start? {t : Text} {q : Quality} (h : start? t = some q) :
    ∃ s, Longest t s q := by
  obtain ⟨n, hgreatest, hq⟩ := exists_isGreatest_of_findSome? h
  refine ⟨t.take n, List.take_prefix n t, spelled?_eq_some_iff.mp hq, fun {u r} hu hr => ?_⟩
  have hn : n ≤ t.length := Nat.lt_succ_iff.mp hgreatest.1.1
  rw [List.length_take, min_eq_left hn]
  refine hgreatest.2 ⟨Nat.lt_succ_iff.mpr hu.length_le, ?_⟩
  rw [← List.prefix_iff_eq_take.mp hu, spelled?_eq_some_iff.mpr hr]
  rfl

theorem Longest.unique {t s s' : Text} {q q' : Quality} (h : Longest t s q)
    (h' : Longest t s' q') : q = q' := by
  have hlength : s.length = s'.length :=
    le_antisymm (h'.length_le h.starts h.spells) (h.length_le h'.starts h'.spells)
  have hs : s = s' := (List.prefix_of_prefix_length_le h.starts h'.starts hlength.le).eq_of_length
    hlength
  have hq := spelled?_eq_some_iff.mpr h.spells
  rw [hs, spelled?_eq_some_iff.mpr h'.spells] at hq
  exact (Option.some.inj hq).symm

/-- Nothing at all spells a major triad. -/
theorem isSome_start? (t : Text) : (start? t).isSome = true := by
  rw [start?, List.findSome?_isSome_iff]
  exact ⟨0, by simp, by rw [List.take_zero]; decide⟩

theorem start?_eq_some_iff {t : Text} {q : Quality} :
    start? t = some q ↔ ∃ s, Longest t s q := by
  refine ⟨exists_longest_of_start?, ?_⟩
  rintro ⟨s, h⟩
  obtain ⟨r, hr⟩ := Option.isSome_iff_exists.mp (isSome_start? t)
  obtain ⟨s', h'⟩ := exists_longest_of_start? hr
  rw [hr, h'.unique h]

/-- Every quality has the root. -/
theorem head?_members : ∀ q ∈ all, q.intervals.members.head? = some 0 := by
  decide +kernel

theorem Names.mem {suffix : Text} {q : Quality} (h : Names suffix q) : q ∈ all := by
  obtain ⟨before, after, hall, -⟩ := h
  simp [hall]

theorem Spells.mem {t : Text} {q : Quality} (h : Spells t q) : q ∈ all := by
  cases h with
  | suffix h => exact h.mem
  | other _ h => exact h.mem

end Quality

/-! ### Labels -/

namespace Chord

open Text Pitch

/-- Suffixes with a slash in them. -/
def sixNines : List Text := ["6/9", "m6/9"]

theorem isSixNine_iff {t : Text} : isSixNine t = true ↔ t ∈ sixNines := by
  simp [isSixNine, sixNines]

/-- What follows the root of a label is cut at its last slash, but not at the slash of a suffix. -/
inductive Cuts : Text → Text → Option Text → Prop
  | whole {t : Text} (h : byte '/' ∉ t) : Cuts t t none
  | sixNine {s u : Text} (hlast : byte '/' ∉ u) (h : s ++ byte '/' :: u.take 1 ∈ sixNines) :
      Cuts (s ++ byte '/' :: u) (s ++ byte '/' :: u) none
  | slash {s u : Text} (hlast : byte '/' ∉ u) (h : s ++ byte '/' :: u.take 1 ∉ sixNines) :
      Cuts (s ++ byte '/' :: u) s (some u)

/-- The tones of a chord, and then its bass if it is none of them. -/
inductive Adds (tones : List Int) : Option Text → List Int → Prop
  | bass {u rest : Text} {c : Int} (h : Begins u c rest) (hnew : c ∉ tones) :
      Adds tones (some u) (tones ++ [c])
  | nothing {below : Option Text} (h : ∀ u ∈ below, ∀ c rest, Begins u c rest → c ∈ tones) :
      Adds tones below tones

/-- The tones that a label tells above a root. -/
inductive Tells (label : Text) : Int → List Int → Prop
  | intro {body rest cut suffix : Text} {below : Option Text} {root : Int} {q : Quality}
      {tones : List Int} (hbody : Stripped isBlank label body) (hroot : Begins body root rest)
      (hcut : Cuts rest cut below) (hquality : Quality.Longest cut suffix q)
      (hbass : Adds (q.intervals.members.map fun (i : Nat) => classOf (root + i)) below tones) :
      Tells label root tones

/-- The class of the note below a slash, if there is one. -/
def bassOf (below : Option Text) : Option Int := below.bind fun u => (startClass? u).map (·.1)

theorem exists_cuts (t : Text) : ∃ cut below, Cuts t cut below := by
  by_cases hslash : byte '/' ∈ t
  · obtain ⟨⟨s, u⟩, hcut⟩ := Option.ne_none_iff_exists'.mp
      (mt cutAtLast?_eq_none_iff.mp (not_not.mpr hslash))
    obtain ⟨rfl, hlast⟩ := cutAtLast?_eq_some_iff.mp hcut
    by_cases hsix : s ++ byte '/' :: u.take 1 ∈ sixNines
    · exact ⟨_, _, .sixNine hlast hsix⟩
    · exact ⟨_, _, .slash hlast hsix⟩
  · exact ⟨_, _, .whole hslash⟩

theorem Cuts.splitBass_eq {t cut : Text} {below : Option Text} (h : Cuts t cut below) :
    splitBass t = (cut, bassOf below) := by
  cases h with
  | whole h => rw [splitBass, cutAtLast?_eq_none_iff.mpr h]; rfl
  | sixNine hlast h =>
      rw [splitBass, cutAtLast?_append hlast]
      dsimp only
      rw [if_pos (isSixNine_iff.mpr h)]
      rfl
  | slash hlast h =>
      rw [splitBass, cutAtLast?_append hlast]
      dsimp only
      rw [if_neg (mt isSixNine_iff.mp h)]
      rfl

theorem exists_adds (tones : List Int) (below : Option Text) : ∃ all, Adds tones below all := by
  by_cases hnew : ∃ u ∈ below, ∃ c rest, Begins u c rest ∧ c ∉ tones
  · obtain ⟨u, rfl, c, rest, h, hnew⟩ := hnew
    exact ⟨_, .bass h hnew⟩
  · push Not at hnew
    exact ⟨tones, .nothing hnew⟩

theorem Adds.eq_tonesAbove {root : Int} {intervals : IntervalSet} {below : Option Text}
    {tones : List Int}
    (h : Adds (intervals.members.map fun (i : Nat) => classOf (root + i)) below tones) :
    tonesAbove root intervals (bassOf below) = tones := by
  rw [tonesAbove, bassOf]
  generalize intervals.members.map (fun (i : Nat) => classOf (root + i)) = chord at h
  cases h with
  | bass h hnew => simp [startClass?_eq_some_iff.mpr h, hnew]
  | nothing h =>
      cases below with
      | none => simp
      | some u =>
          cases hstart : startClass? u with
          | none => simp [hstart]
          | some note =>
              have hmem := h u rfl note.1 note.2 (startClass?_eq_some_iff.mp hstart)
              simp [hstart, hmem]

theorem Tells.tonesOfLabel?_eq {label : Text} {root : Int} {tones : List Int}
    (h : Tells label root tones) : tonesOfLabel? label = some tones := by
  obtain ⟨hbody, hroot, hcut, hquality, hbass⟩ := h
  rw [← hbass.eq_tonesAbove]
  refine Chord.tonesOfLabel?_eq hbody.strip_eq (startClass?_eq_some_iff.mpr hroot)
    hcut.splitBass_eq ?_
  rw [Quality.start?_eq_some_iff.mpr ⟨_, hquality⟩]
  rfl

theorem exists_tells {label body rest : Text} {root : Int} (hbody : Stripped isBlank label body)
    (hroot : Begins body root rest) : ∃ tones, Tells label root tones := by
  obtain ⟨cut, below, hcut⟩ := exists_cuts rest
  obtain ⟨q, hq⟩ := Option.isSome_iff_exists.mp (Quality.isSome_start? cut)
  obtain ⟨suffix, hquality⟩ := Quality.start?_eq_some_iff.mp hq
  obtain ⟨tones, hbass⟩ :=
    exists_adds (q.intervals.members.map fun (i : Nat) => classOf (root + i)) below
  exact ⟨tones, .intro hbody hroot hcut hquality hbass⟩

theorem tonesOfLabel?_eq_some_iff {label : Text} {tones : List Int} :
    tonesOfLabel? label = some tones ↔ ∃ root, Tells label root tones := by
  constructor
  · intro h
    obtain ⟨⟨root, rest⟩, hstart, -⟩ := Option.bind_eq_some_iff.mp h
    obtain ⟨others, htells⟩ := exists_tells (stripped_strip isBlank label)
      (startClass?_eq_some_iff.mp hstart)
    rw [htells.tonesOfLabel?_eq] at h
    exact ⟨root, Option.some.inj h ▸ htells⟩
  · rintro ⟨root, h⟩
    exact h.tonesOfLabel?_eq

theorem isSome_tonesOfLabel?_iff {label : Text} : (tonesOfLabel? label).isSome = true ↔
    ∃ b rest, Stripped isBlank label (b :: rest) ∧ b ∈ noteLetters := by
  have hstart : (tonesOfLabel? label).isSome = (startClass? (strip isBlank label)).isSome := by
    rw [tonesOfLabel?]
    cases startClass? (strip isBlank label) <;> rfl
  rw [hstart, isSome_startClass?_iff]
  constructor
  · rintro ⟨b, rest, hbody, hb⟩
    exact ⟨b, rest, hbody ▸ stripped_strip isBlank label, hb⟩
  · rintro ⟨b, rest, hbody, hb⟩
    exact ⟨b, rest, hbody.strip_eq, hb⟩

theorem head?_tonesAbove {root : Int} (hroot : 0 ≤ root ∧ root < 12) {q : Quality}
    (hq : q ∈ Quality.all) (below : Option Int) :
    (tonesAbove root q.intervals below).head? = some root := by
  obtain ⟨rest, hrest⟩ := List.head?_eq_some_iff.mp (Quality.head?_members q hq)
  rw [tonesAbove, hrest, List.map_cons, List.cons_append, List.head?_cons, Int.ofNat_zero,
    add_zero, classOf, Int.emod_eq_of_lt hroot.1 hroot.2]

theorem bassOf_range {below : Option Text} : ∀ c ∈ bassOf below, 0 ≤ c ∧ c < 12 := by
  intro c hc
  obtain ⟨u, -, hc⟩ := Option.bind_eq_some_iff.mp hc
  obtain ⟨note, hstart, rfl⟩ := Option.map_eq_some_iff.mp hc
  exact (startClass?_eq_some_iff.mp hstart).range

theorem Tells.spec {label : Text} {root : Int} {tones : List Int} (h : Tells label root tones) :
    tones.head? = some root ∧ tones.Nodup ∧ ∀ x ∈ tones, 0 ≤ x ∧ x < 12 := by
  obtain ⟨hbody, hroot, hcut, hquality, hbass⟩ := h
  rw [← hbass.eq_tonesAbove]
  refine ⟨head?_tonesAbove hroot.range hquality.spells.mem _, nodup_tonesAbove _ _ _, ?_⟩
  intro x hx
  rcases mem_tonesAbove.mp hx with ⟨i, -, rfl⟩ | hx
  · exact classOf_range _
  · exact bassOf_range x hx

/-- A label has tones just if it begins with the letter of a note, between blanks. They are those
that it tells, and are different classes, the root first. -/
theorem tonesOfLabel?_iff_tells (label : Text) :
    ((tonesOfLabel? label).isSome = true ↔
      ∃ b rest, Stripped isBlank label (b :: rest) ∧ b ∈ noteLetters) ∧
    (∀ tones, tonesOfLabel? label = some tones ↔ ∃ root, Tells label root tones) ∧
    ∀ root tones, Tells label root tones →
      tones.head? = some root ∧ tones.Nodup ∧ ∀ x ∈ tones, 0 ≤ x ∧ x < 12 :=
  ⟨isSome_tonesOfLabel?_iff, fun _ => tonesOfLabel?_eq_some_iff, fun _ _ => Tells.spec⟩

/-- A seventh chord over a bass of its own. -/
def slashedSeventh : Text := "\tBbmaj7/Ab "

theorem tonesOfLabel?_slashedSeventh : Tells slashedSeventh 10 [10, 2, 5, 9, 8] ∧
    tonesOfLabel? slashedSeventh = some [10, 2, 5, 9, 8] ∧
    (([10, 2, 5, 9, 8] : List Int).head? = some 10 ∧ ([10, 2, 5, 9, 8] : List Int).Nodup ∧
      ∀ x ∈ ([10, 2, 5, 9, 8] : List Int), 0 ≤ x ∧ x < 12) := by
  have hbody : Stripped isBlank slashedSeventh "Bbmaj7/Ab" :=
    ⟨⟨"\t", " ", by decide +kernel⟩, by decide +kernel, by decide +kernel⟩
  have hroot : Begins "Bbmaj7/Ab" 10 "maj7/Ab" := @Begins.flat (byte 'B') 11 "maj7/Ab" (by decide)
  have hcut : Cuts "maj7/Ab" "maj7" (some "Ab") :=
    @Cuts.slash "maj7" "Ab" (by decide) (by decide)
  have hquality : Quality.Longest "maj7" "maj7" ⟨"maj7", IntervalSet.ofList [0, 4, 7, 11]⟩ :=
    ⟨List.prefix_rfl, .suffix (Quality.ofSuffix?_eq_some_iff.mp (by decide +kernel)),
      fun hu _ => hu.length_le⟩
  have hbass : Begins "Ab" 8 [] := @Begins.flat (byte 'A') 9 [] (by decide)
  have htells : Tells slashedSeventh 10 [10, 2, 5, 9, 8] :=
    .intro hbody hroot hcut hquality (.bass hbass (by decide))
  obtain ⟨-, htones, hspec⟩ := tonesOfLabel?_iff_tells slashedSeventh
  exact ⟨htells, (htones _).mpr ⟨10, htells⟩, hspec 10 _ htells⟩

/-- The slash of a suffix tells no bass, but one after it does, also where the bass is no note. -/
example : tonesOfLabel? "C6/9" = some [0, 2, 4, 7, 9] ∧
    tonesOfLabel? "C6/9/E" = some [0, 2, 4, 7, 9] ∧ tonesOfLabel? "Cm7/9" = some [0, 3, 7, 10] := by
  decide +kernel

end Chord

end MusicPart
