import MusicPart.Proofs.TagRuns

/-!
# Carried channels

Where an instrument tells articulations apart by channel, a note goes to the channel of the last
known tag so far, its own included. Notes before the first known tag stay where they are, and the
instrument is sent no event.
-/

namespace MusicPart.Articulator

open Quantity (Lawful)

variable {α : Type} (s : Articulator α)

/-! ### The last known tag -/

/-- The entry of the last known tag among some notes. -/
def lastKnown? (notes : List (Note α)) : Option Articulation :=
  (notes.filterMap s.known?).getLast?

theorem lastKnown?_cons (n : Note α) (notes : List (Note α)) :
    s.lastKnown? (n :: notes) = (s.lastKnown? notes).or (s.known? n) := by
  rw [lastKnown?, lastKnown?]
  cases hentry : s.known? n with
  | none => rw [List.filterMap_cons_none hentry, Option.or_none]
  | some a =>
      rw [List.filterMap_cons_some hentry, List.getLast?_cons]
      cases (notes.filterMap s.known?).getLast? <;> rfl

theorem known?_erase (n : Note α) : s.known? (s.erase n) = s.known? n := by
  cases hentry : s.known? n with
  | none => rw [known?, s.isTagged_erase_of_none hentry, if_neg Bool.false_ne_true]
  | some a => rw [(s.erase_of_some hentry).2.2, hentry]

theorem carry_cons (channel : Option Int) (n : Note α) (notes : List (Note α)) :
    s.carry channel (n :: notes) =
      ((((s.known? n).map s.channelOf).or channel).map (route · n)).getD n ::
        s.carry (((s.known? n).map s.channelOf).or channel) notes := by
  have hentry : (s.articulations.find? n.tag).filter (fun _ => isTagged n) = s.known? n := by
    rw [known?]
    cases isTagged n <;> cases s.articulations.find? n.tag <;> rfl
  rw [carry, hentry]

/-- A note without an unknown tag, in a channel if there is one to go to. -/
def delivered (channel : Option Int) (n : Note α) : Note α :=
  { n with tag := if s.isUnknown n then [] else n.tag, channel := channel.getD n.channel }

theorem route_erase (channel : Option Int) (n : Note α) :
    (channel.map (route · (s.erase n))).getD (s.erase n) = s.delivered channel n := by
  rw [delivered, erase]
  cases channel with
  | none =>
      rw [Option.map_none, Option.getD_none, Option.getD_none]
      split <;> rfl
  | some c =>
      rw [Option.map_some, Option.getD_some, Option.getD_some]
      split <;> rfl

theorem carry_erase (channel : Option Int) (notes : List (Note α)) :
    s.carry channel (notes.map s.erase) = notes.mapIdx fun k n =>
      s.delivered (((s.lastKnown? (notes.take (k + 1))).map s.channelOf).or channel) n := by
  induction notes generalizing channel with
  | nil => rfl
  | cons n notes ih =>
      have hfirst : s.lastKnown? ((n :: notes).take (0 + 1)) = s.known? n := s.lastKnown?_cons n []
      have hlater (k : Nat) : ((s.lastKnown? (notes.take (k + 1))).map s.channelOf).or
          (((s.known? n).map s.channelOf).or channel) =
            ((s.lastKnown? ((n :: notes).take (k + 1 + 1))).map s.channelOf).or channel := by
        rw [List.take_succ_cons, lastKnown?_cons, Option.map_or, Option.or_assoc]
      rw [List.map_cons, carry_cons, known?_erase, route_erase, ih, List.mapIdx_cons, hfirst]
      simp only [hlater]

/-! ### Changes of the tag -/

/-- Carries the channel by looking tags up only where they change. -/
def carryChanges : Text → Option Int → List (Note α) → List (Note α)
  | _, _, [] => []
  | current, channel, n :: notes =>
      if !isTagged n || Text.lower n.tag == current then
        (channel.map (route · n)).getD n :: carryChanges current channel notes
      else
        let next := ((s.articulations.find? n.tag).map s.channelOf).or channel
        (next.map (route · n)).getD n :: carryChanges (Text.lower n.tag) next notes

/-- A tag that is repeated leads to the channel where the notes go already. -/
theorem carryChanges_eq {current : Text} {channel : Option Int}
    (h : ∀ tag : Text, tag ≠ [] → Text.lower tag = current →
      ((s.articulations.find? tag).map s.channelOf).or channel = channel) (notes : List (Note α)) :
    s.carryChanges current channel notes = s.carry channel notes := by
  induction notes generalizing current channel with
  | nil => rfl
  | cons n notes ih =>
      rw [carryChanges, carry_cons, known?]
      by_cases htag : isTagged n = true
      · rw [htag, Bool.not_true, Bool.false_or, if_pos rfl]
        by_cases hsame : (Text.lower n.tag == current) = true
        · have hnext := h n.tag (by simpa [isTagged] using htag) (eq_of_beq hsame)
          rw [if_pos hsame, hnext, ih h]
        · -- From here on a tag that is spelled like this one leads to the same channel.
          have hnext (tag : Text) (hlower : Text.lower tag = Text.lower n.tag) :
              ((s.articulations.find? tag).map s.channelOf).or
                (((s.articulations.find? n.tag).map s.channelOf).or channel) =
                  ((s.articulations.find? n.tag).map s.channelOf).or channel := by
            rw [Articulations.find?, hlower, ← Articulations.find?, ← Option.or_assoc,
              Option.or_self]
          rw [if_neg hsame]
          exact congrArg _ (ih fun tag _ => hnext tag)
      · rw [Bool.not_eq_true] at htag
        rw [htag, Bool.not_false, Bool.true_or, if_pos rfl, if_neg Bool.false_ne_true, ih h]
        rfl

/-- Beginning without a tag there is no channel to go to. -/
theorem carryChanges_nil (notes : List (Note α)) :
    s.carryChanges [] none notes = s.carry none notes :=
  s.carryChanges_eq (fun _ htag hlower => absurd (List.map_eq_nil_iff.mp hlower) htag) notes

/-! ### Delivering by channel -/

end MusicPart.Articulator
