import Mathlib
import MusicPart.Proofs.LetterCase
import MusicPart.Proofs.Literals

/-!
# UTF-8

A text is read byte by byte, and at any time so many tail bytes are owed. An ASCII byte is none of
them, so a text is in order if and only if what stands before it and what stands after it are. That
is why escaping, lowering and stripping keep a text in order. Cutting it keeps it in order if the
cut is in front of no tail byte. The texts in order are those that scalar values are encoded to.
-/

namespace MusicPart.Text.Utf8

open Json (Literal.forall_byte)

/-! ### What is owed -/

/-- Nothing is owed, or the next byte that is owed is a tail byte. -/
def Owes (pending : Nat) (low high : UInt8) : Prop := pending = 0 ∨ 0x80 ≤ low ∧ high ≤ 0xBF

theorem owes_zero (low high : UInt8) : Owes 0 low high := .inl rfl

theorem owes_tail (pending : Nat) : Owes pending 0x80 0xBF := .inr ⟨by decide, by decide⟩

theorem owes_of_following? {b : UInt8} {n : Nat} {low high : UInt8}
    (h : following? b = some (n, low, high)) : Owes n low high := by
  have hall (b : UInt8) :
      (following? b).all fun f => f.1 == 0 || (0x80 ≤ f.2.1 && f.2.2 ≤ 0xBF) := by
    revert b
    exact Literal.forall_byte (by decide +kernel)
  have hb := hall b
  rw [h] at hb
  simpa [Owes] using hb

theorem following?_of_lt {b : UInt8} (h : b < 0x80) : following? b = some (0, 0, 0) := by
  rw [following?, if_pos h]

theorem following?_of_isTail {b : UInt8} (h : isTail b = true) : following? b = none := by
  revert h
  exact Literal.forall_byte (p := fun b => isTail b = true → following? b = none)
    (by decide +kernel) b

theorem not_lt_of_isTail {b : UInt8} (h : isTail b = true) : ¬b < 0x80 := by
  revert h
  exact Literal.forall_byte (p := fun b => isTail b = true → ¬b < 0x80) (by decide +kernel) b

section Steps

variable {n : Nat} {low high b : UInt8} {s t : Text}

theorem accepts_zero (low high : UInt8) (t : Text) : accepts 0 low high t = isValid t := by
  cases t <;> rfl

theorem isValid_cons :
    isValid (b :: t) = (following? b).any fun f => accepts f.1 f.2.1 f.2.2 t := by
  rw [isValid, accepts]
  cases following? b <;> rfl

theorem accepts_succ_cons : accepts (n + 1) low high (b :: t) =
    (low ≤ b && b ≤ high && accepts n 0x80 0xBF t) := rfl

theorem isTail_of_owes (h : Owes (n + 1) low high) (hb : (low ≤ b && b ≤ high) = true) :
    isTail b = true := by
  obtain ⟨hlow, hhigh⟩ := h.resolve_left (Nat.succ_ne_zero n)
  simp only [Bool.and_eq_true, decide_eq_true_eq] at hb
  simp only [isTail, Bool.and_eq_true, decide_eq_true_eq]
  exact ⟨UInt8.le_trans hlow hb.1, UInt8.le_trans hb.2 hhigh⟩

theorem isValid_cons_of_lt (hb : b < 0x80) : isValid (b :: t) = isValid t := by
  rw [isValid_cons, following?_of_lt hb]
  exact accepts_zero 0 0 t

/-- No ASCII byte is taken for one that is owed. -/
theorem accepts_succ_cons_of_lt (h : Owes (n + 1) low high) (hb : b < 0x80) :
    accepts (n + 1) low high (b :: t) = false := by
  by_contra htrue
  rw [Bool.not_eq_false, accepts_succ_cons, Bool.and_eq_true] at htrue
  exact not_lt_of_isTail (isTail_of_owes h htrue.1) hb

/-- After a byte nothing is in order, or what is owed then tells what is. -/
theorem accepts_cons (h : Owes n low high) (b : UInt8) :
    (∀ t, accepts n low high (b :: t) = false) ∨ ∃ n' low' high', Owes n' low' high' ∧
      ∀ t, accepts n low high (b :: t) = accepts n' low' high' t := by
  cases n with
  | zero =>
      simp only [accepts_zero, isValid_cons]
      cases hb : following? b with
      | none => exact .inl fun _ => rfl
      | some f => exact .inr ⟨f.1, f.2.1, f.2.2, owes_of_following? hb, fun _ => rfl⟩
  | succ n =>
      simp only [accepts_succ_cons]
      cases low ≤ b && b ≤ high with
      | false => exact .inl fun t => Bool.false_and _
      | true => exact .inr ⟨n, 0x80, 0xBF, owes_tail n, fun t => Bool.true_and _⟩

/-! ### Texts in order side by side -/

theorem accepts_append_cons (h : Owes n low high) (hb : b < 0x80) :
    accepts n low high (s ++ b :: t) = (accepts n low high s && isValid t) := by
  induction s generalizing n low high with
  | nil =>
      cases n with
      | zero => rw [List.nil_append, accepts_zero, isValid_cons_of_lt hb]; rfl
      | succ n => rw [List.nil_append, accepts_succ_cons_of_lt h hb]; rfl
  | cons c s ih =>
      rw [List.cons_append]
      obtain hfalse | ⟨n', low', high', howes, hstep⟩ := accepts_cons h c
      · rw [hfalse, hfalse, Bool.false_and]
      · rw [hstep, hstep, ih howes]

theorem isValid_append_cons (hb : b < 0x80) :
    isValid (s ++ b :: t) = (isValid s && isValid t) := accepts_append_cons (owes_zero 0 0) hb

theorem accepts_append (h : Owes n low high) (hs : accepts n low high s = true) :
    accepts n low high (s ++ t) = isValid t := by
  induction s generalizing n low high with
  | nil =>
      cases n with
      | zero => exact accepts_zero low high t
      | succ n => exact nomatch hs
  | cons c s ih =>
      rw [List.cons_append]
      obtain hfalse | ⟨n', low', high', howes, hstep⟩ := accepts_cons h c
      · rw [hfalse] at hs
        exact nomatch hs
      · rw [hstep] at hs ⊢
        exact ih howes hs

theorem isValid_append (h : isValid s = true) : isValid (s ++ t) = isValid t :=
  accepts_append (owes_zero 0 0) h

end Steps

/-! ### ASCII texts -/

/-- All bytes are ASCII. -/
def Ascii (t : Text) : Prop := ∀ b ∈ t, b < 0x80

instance (t : Text) : Decidable (Ascii t) :=
  decidable_of_iff (t.all (· < 0x80) = true) (by simp [Ascii])

namespace Ascii

variable {s t : Text}

theorem nil : Ascii [] := List.forall_mem_nil _

theorem cons {b : UInt8} (hb : b < 0x80) (h : Ascii t) : Ascii (b :: t) :=
  List.forall_mem_cons.mpr ⟨hb, h⟩

theorem append (hs : Ascii s) (ht : Ascii t) : Ascii (s ++ t) := List.forall_mem_append.mpr ⟨hs, ht⟩

theorem mono (h : s ⊆ t) (ht : Ascii t) : Ascii s := fun b hb => ht b (h hb)

theorem isValid_append (h : Ascii s) : isValid (s ++ t) = isValid t := by
  induction s with
  | nil => rfl
  | cons b s ih =>
      obtain ⟨hb, hs⟩ := List.forall_mem_cons.mp h
      rw [List.cons_append, isValid_cons_of_lt hb, ih hs]

theorem isValid (h : Ascii t) : isValid t = true := by
  rw [← List.append_nil t, h.isValid_append]
  rfl

/-- ASCII bytes after a text do not put it in order. -/
theorem append_isValid (h : Ascii t) : Utf8.isValid (s ++ t) = Utf8.isValid s := by
  cases t with
  | nil => rw [List.append_nil]
  | cons b t =>
      obtain ⟨hb, ht⟩ := List.forall_mem_cons.mp h
      rw [isValid_append_cons hb, isValid ht, Bool.and_true]

end Ascii

/-- Between two ASCII bytes. -/
theorem isValid_bracket {b c : UInt8} (hb : b < 0x80) (hc : c < 0x80) (t : Text) :
    isValid (b :: (t ++ [c])) = isValid t := by
  rw [isValid_cons_of_lt hb, (Ascii.cons hc .nil).append_isValid]

/-! ### Other ASCII bytes for ASCII bytes -/

/-- A substitution puts ASCII texts for ASCII bytes and leaves all other bytes. -/
structure KeepsTails (f : UInt8 → Text) : Prop where
  ascii : ∀ b, b < 0x80 → f b ≠ [] ∧ Ascii (f b)
  other : ∀ b, ¬b < 0x80 → f b = [b]

theorem KeepsTails.accepts_flatMap {f : UInt8 → Text} (hf : KeepsTails f) {n : Nat}
    {low high : UInt8} (h : Owes n low high) (t : Text) :
    accepts n low high (t.flatMap f) = accepts n low high t := by
  induction t generalizing n low high with
  | nil => rfl
  | cons b t ih =>
      rw [List.flatMap_cons]
      by_cases hb : b < 0x80
      · obtain ⟨hne, hascii⟩ := hf.ascii b hb
        cases n with
        | zero =>
            rw [accepts_zero, accepts_zero, hascii.isValid_append, isValid_cons_of_lt hb]
            exact ih (owes_zero 0 0)
        | succ n =>
            obtain ⟨c, s, hs⟩ := List.exists_cons_of_ne_nil hne
            rw [hs, List.cons_append, accepts_succ_cons_of_lt h hb,
              accepts_succ_cons_of_lt h (hascii c (hs ▸ List.mem_cons_self))]
      · rw [hf.other b hb, List.singleton_append]
        obtain hfalse | ⟨n', low', high', howes, hstep⟩ := accepts_cons h b
        · rw [hfalse, hfalse]
        · rw [hstep, hstep, ih howes]

theorem keepsTails_escapeByte : KeepsTails Json.Literal.escapeByte where
  ascii := Literal.forall_byte (by decide +kernel)
  other := Literal.forall_byte (by decide +kernel)

@[simp]
theorem isValid_escape (t : Text) : isValid (Json.Literal.escape t) = isValid t :=
  keepsTails_escapeByte.accepts_flatMap (owes_zero 0 0) t

theorem isValid_render (t : Text) : isValid (Json.Literal.render t) = isValid t := by
  rw [Json.Literal.render, isValid_bracket (by decide) (by decide), isValid_escape]

@[simp]
theorem isValid_lower (t : Text) : isValid (lower t) = isValid t := by
  have hlower : KeepsTails fun b => [lowerByte b] :=
    ⟨Literal.forall_byte (by decide +kernel), Literal.forall_byte (by decide +kernel)⟩
  rw [lower, List.map_eq_flatMap]
  exact hlower.accepts_flatMap (owes_zero 0 0) t

/-! ### Cutting -/

theorem isValid_dropWhile {p : UInt8 → Bool} (hp : ∀ b, p b = true → b < 0x80)
    (t : Text) : isValid (t.dropWhile p) = isValid t := by
  have hascii : Ascii (t.takeWhile p) := fun b hb => hp b (List.mem_takeWhile_imp hb)
  conv_rhs => rw [← List.takeWhile_append_dropWhile (p := p) (l := t), hascii.isValid_append]

/-- Stripping takes ASCII bytes away. -/
theorem isValid_strip {p : UInt8 → Bool} (hp : ∀ b, p b = true → b < 0x80) (t : Text) :
    isValid (strip p t) = isValid t := by
  have hend (t : Text) : isValid (dropEndWhile p t) = isValid t := by
    have hascii : Ascii (t.reverse.takeWhile p).reverse := fun b hb =>
      hp b (List.mem_takeWhile_imp (List.mem_reverse.mp hb))
    have hsplit : dropEndWhile p t ++ (t.reverse.takeWhile p).reverse = t := by
      rw [dropEndWhile, ← List.reverse_append, List.takeWhile_append_dropWhile,
        List.reverse_reverse]
    conv_rhs => rw [← hsplit, hascii.append_isValid]
  rw [strip, hend, isValid_dropWhile hp]

theorem accepts_take {n : Nat} {low high : UInt8} {t : Text} (h : Owes n low high)
    (ht : accepts n low high t = true) (k : Nat) :
    accepts n low high (t.take k) = true ↔ ∀ b ∈ t[k]?, isTail b = false := by
  induction t generalizing n low high k with
  | nil => simp [ht]
  | cons c t ih =>
      cases k with
      | zero =>
          have hc : (accepts n low high [] = true) ↔ isTail c = false := by
            cases n with
            | zero =>
                refine iff_of_true rfl (Bool.eq_false_iff.mpr fun htail => ?_)
                rw [accepts_zero, isValid_cons, following?_of_isTail htail] at ht
                exact nomatch ht
            | succ n =>
                rw [accepts_succ_cons, Bool.and_eq_true] at ht
                refine iff_of_false nofun (Bool.not_eq_false _ ▸ isTail_of_owes h ht.1)
          rw [List.take_zero, hc, List.getElem?_cons_zero]
          simp
      | succ k =>
          rw [List.take_succ_cons, List.getElem?_cons_succ]
          obtain hfalse | ⟨n', low', high', howes, hstep⟩ := accepts_cons h c
          · rw [hfalse] at ht
            exact nomatch ht
          · rw [hstep] at ht ⊢
            exact ih howes ht k

/-- A text that is cut stays in order if and only if the cut is in front of no tail byte. -/
theorem isValid_take_iff {t : Text} (h : isValid t = true) (k : Nat) :
    isValid (t.take k) = true ↔ ∀ b ∈ t[k]?, isTail b = false :=
  accepts_take (owes_zero 0 0) h k

/-! ### Encoding -/

/-- A Unicode scalar value: any code that is no surrogate. -/
def IsScalar (code : Nat) : Prop := code < 0xD800 ∨ 0xE000 ≤ code ∧ code < 0x110000

theorem isTail_tail (code shift : Nat) : isTail (tail code shift) = true := by
  have htail (m : Fin 64) : isTail (0x80 + m.val).toUInt8 = true := by
    revert m
    decide +kernel
  exact htail ⟨(code >>> shift) % 64, Nat.mod_lt _ (by decide)⟩

theorem accepts_tail (n code shift : Nat) (t : Text) :
    accepts (n + 1) 0x80 0xBF (tail code shift :: t) = accepts n 0x80 0xBF t := by
  rw [accepts_succ_cons]
  exact (congrArg (· && _) (isTail_tail code shift)).trans (Bool.true_and _)

/-- A lead byte and a byte that may follow it, after which so many tail bytes are owed. -/
def Opens (lead second : UInt8) (n : Nat) : Bool :=
  (following? lead).any fun f => f.1 == n + 1 && f.2.1 ≤ second && second ≤ f.2.2

theorem isValid_of_opens {lead second : UInt8} {n : Nat} (h : Opens lead second n = true)
    (t : Text) : isValid (lead :: second :: t) = accepts n 0x80 0xBF t := by
  rw [Opens] at h
  rw [isValid_cons]
  cases hlead : following? lead with
  | none =>
      rw [hlead] at h
      exact nomatch h
  | some f =>
      rw [hlead] at h
      simp only [Option.any_some, Bool.and_eq_true, beq_iff_eq, decide_eq_true_eq] at h
      rw [Option.any_some, h.1.1, accepts_succ_cons]
      simp [h.1.2, h.2]

theorem opens_two {a m : Nat} (ha : 2 ≤ a) (ha' : a < 32) (hm : m < 64) :
    Opens (0xC0 + a).toUInt8 (0x80 + m).toUInt8 0 = true := by
  have hopens (a : Fin 32) (m : Fin 64) :
      2 ≤ a.val → Opens (0xC0 + a.val).toUInt8 (0x80 + m.val).toUInt8 0 = true := by
    revert a m
    decide +kernel
  exact hopens ⟨a, ha'⟩ ⟨m, hm⟩ ha

theorem opens_three {a m : Nat} (ha : a < 16) (hm : m < 64) (hlong : a = 0 → 32 ≤ m)
    (hscalar : a = 13 → m < 32) : Opens (0xE0 + a).toUInt8 (0x80 + m).toUInt8 1 = true := by
  have hopens (a : Fin 16) (m : Fin 64) : (a.val = 0 → 32 ≤ m.val) → (a.val = 13 → m.val < 32) →
      Opens (0xE0 + a.val).toUInt8 (0x80 + m.val).toUInt8 1 = true := by
    revert a m
    decide +kernel
  exact hopens ⟨a, ha⟩ ⟨m, hm⟩ hlong hscalar

theorem opens_four {a m : Nat} (ha : a < 5) (hm : m < 64) (hlong : a = 0 → 16 ≤ m)
    (hscalar : a = 4 → m < 16) : Opens (0xF0 + a).toUInt8 (0x80 + m).toUInt8 2 = true := by
  have hopens (a : Fin 5) (m : Fin 64) : (a.val = 0 → 16 ≤ m.val) → (a.val = 4 → m.val < 16) →
      Opens (0xF0 + a.val).toUInt8 (0x80 + m.val).toUInt8 2 = true := by
    revert a m
    decide +kernel
  exact hopens ⟨a, ha⟩ ⟨m, hm⟩ hlong hscalar

/-- The lead byte and the byte after it tell which codes are too long or surrogates. -/
theorem isValid_encode {code : Nat} (h : IsScalar code) : isValid (encode code) = true := by
  have hshift (k : Nat) : code >>> k = code / 2 ^ k := Nat.shiftRight_eq_div_pow code k
  rw [IsScalar] at h
  rw [encode]
  split_ifs with h₁ h₂ h₃
  · have hlt : code.toUInt8 < 0x80 := by
      rw [UInt8.lt_iff_toNat_lt]
      simpa [Nat.mod_eq_of_lt (show code < 256 by omega)] using h₁
    rw [isValid_cons_of_lt hlt]
    rfl
  · rw [tail, hshift, hshift, isValid_of_opens (opens_two (by omega) (by omega) (by omega))]
    rfl
  · have hopens := opens_three (a := code >>> 12) (m := code >>> 6 % 64) (by rw [hshift]; omega)
      (by omega) (by rw [hshift, hshift]; omega) (by rw [hshift, hshift]; omega)
    rw [tail, isValid_of_opens hopens, accepts_tail]
    rfl
  · have hopens := opens_four (a := code >>> 18) (m := code >>> 12 % 64) (by rw [hshift]; omega)
      (by omega) (by rw [hshift, hshift]; omega) (by rw [hshift, hshift]; omega)
    rw [tail, isValid_of_opens hopens, accepts_tail, accepts_tail]
    rfl

/-! ### Decoding -/

/-- The bytes that lead so many others, and the second bytes that would make a code too long, a
surrogate or too large. -/
def Leads (b : UInt8) (n : Nat) (low high : UInt8) : Prop :=
  n = 0 ∧ b.toNat < 0x80 ∨ n = 1 ∧ 0xC2 ≤ b.toNat ∧ b.toNat < 0xE0 ∨
    n = 2 ∧ 0xE0 ≤ b.toNat ∧ b.toNat < 0xF0 ∧ (b.toNat = 0xE0 → 0xA0 ≤ low.toNat) ∧
      (b.toNat = 0xED → high.toNat < 0xA0) ∨
    n = 3 ∧ 0xF0 ≤ b.toNat ∧ b.toNat < 0xF5 ∧ (b.toNat = 0xF0 → 0x90 ≤ low.toNat) ∧
      (b.toNat = 0xF4 → high.toNat < 0x90)

instance (b : UInt8) (n : Nat) (low high : UInt8) : Decidable (Leads b n low high) :=
  inferInstanceAs (Decidable (_ ∨ _))

theorem leads_of_following? {b : UInt8} {n : Nat} {low high : UInt8}
    (h : following? b = some (n, low, high)) : Leads b n low high := by
  have hall (b : UInt8) : ∀ f ∈ following? b, Leads b f.1 f.2.1 f.2.2 := by
    revert b
    exact Literal.forall_byte (by decide +kernel)
  exact hall b _ h

theorem exists_add_of_le {b : UInt8} {base : Nat} (h : base ≤ b.toNat) :
    ∃ m, b.toNat = base + m ∧ b = (base + m).toUInt8 := by
  obtain ⟨m, hm⟩ := Nat.exists_eq_add_of_le h
  exact ⟨m, hm, hm ▸ UInt8.ofNat_toNat.symm⟩

/-- A byte that was owed: it lies in its range, and gives six bits. -/
theorem exists_tail_of_accepts {n : Nat} {low high : UInt8} {t : Text}
    (howes : Owes (n + 1) low high) (h : accepts (n + 1) low high t = true) :
    ∃ m s, t = (0x80 + m).toUInt8 :: s ∧ m < 64 ∧ low.toNat ≤ 0x80 + m ∧ 0x80 + m ≤ high.toNat ∧
      accepts n 0x80 0xBF s = true := by
  cases t with
  | nil => exact absurd h Bool.false_ne_true
  | cons b s =>
      rw [accepts_succ_cons, Bool.and_eq_true] at h
      have htail := isTail_of_owes howes h.1
      simp only [isTail, Bool.and_eq_true, decide_eq_true_eq, UInt8.le_iff_toNat_le,
        UInt8.reduceToNat] at h htail
      obtain ⟨m, hm, hb⟩ := exists_add_of_le htail.1
      rw [hm] at h htail
      exact ⟨m, s, by rw [← hb], by omega, h.1.1, h.1.2, h.2⟩

theorem encode_ascii {b : UInt8} (hb : b.toNat < 0x80) : encode b.toNat = [b] := by
  rw [encode, if_pos hb]
  exact congrArg ([·]) UInt8.ofNat_toNat

theorem encode_two {a m : Nat} (ha : 2 ≤ a) (ha' : a < 32) (hm : m < 64) :
    encode (64 * a + m) = [(0xC0 + a).toUInt8, (0x80 + m).toUInt8] := by
  rw [encode, if_neg (by omega), if_pos (by omega), tail, Nat.shiftRight_eq_div_pow,
    Nat.shiftRight_zero, show (64 * a + m) / 2 ^ 6 = a by omega,
    show (64 * a + m) % 64 = m by omega]

theorem encode_three {a m k : Nat} (ha : a < 16) (hlong : a = 0 → 32 ≤ m) (hm : m < 64)
    (hk : k < 64) : encode (64 * (64 * a + m) + k) =
      [(0xE0 + a).toUInt8, (0x80 + m).toUInt8, (0x80 + k).toUInt8] := by
  rw [encode, if_neg (by omega), if_neg (by omega), if_pos (by omega), tail, tail,
    Nat.shiftRight_eq_div_pow, Nat.shiftRight_eq_div_pow, Nat.shiftRight_zero,
    show (64 * (64 * a + m) + k) / 2 ^ 12 = a by omega,
    show (64 * (64 * a + m) + k) / 2 ^ 6 % 64 = m by omega,
    show (64 * (64 * a + m) + k) % 64 = k by omega]

theorem encode_four {a m k l : Nat} (hlong : a = 0 → 16 ≤ m) (hm : m < 64)
    (hk : k < 64) (hl : l < 64) : encode (64 * (64 * (64 * a + m) + k) + l) =
      [(0xF0 + a).toUInt8, (0x80 + m).toUInt8, (0x80 + k).toUInt8, (0x80 + l).toUInt8] := by
  rw [encode, if_neg (by omega), if_neg (by omega), if_neg (by omega), tail, tail, tail,
    Nat.shiftRight_eq_div_pow, Nat.shiftRight_eq_div_pow, Nat.shiftRight_eq_div_pow,
    Nat.shiftRight_zero,
    show (64 * (64 * (64 * a + m) + k) + l) / 2 ^ 18 = a by omega,
    show (64 * (64 * (64 * a + m) + k) + l) / 2 ^ 12 % 64 = m by omega,
    show (64 * (64 * (64 * a + m) + k) + l) / 2 ^ 6 % 64 = k by omega,
    show (64 * (64 * (64 * a + m) + k) + l) % 64 = l by omega]

/-- A text in order begins with the bytes of a scalar value, and the rest of it is in order. -/
theorem exists_encode_append {b : UInt8} {t : Text} (h : isValid (b :: t) = true) :
    ∃ code s, IsScalar code ∧ b :: t = encode code ++ s ∧ isValid s = true := by
  rw [isValid_cons, Option.any_eq_true] at h
  obtain ⟨⟨n, low, high⟩, hb, h⟩ := h
  have howes := owes_of_following? hb
  have hleads := leads_of_following? hb
  clear hb
  dsimp only at h
  -- One case for each number of bytes that follow.
  obtain ⟨rfl, hlow⟩ | ⟨rfl, hlow, hhigh⟩ | ⟨rfl, hlow, hhigh, hlong, hscalar⟩ |
    ⟨rfl, hlow, hhigh, hlong, hscalar⟩ := hleads
  · exact ⟨b.toNat, t, .inl (by omega), by rw [encode_ascii hlow]; rfl, accepts_zero low high t ▸ h⟩
  · obtain ⟨a, ha, rfl⟩ := exists_add_of_le (show 0xC0 ≤ b.toNat by omega)
    obtain ⟨m, s, rfl, hm, -, -, h⟩ := exists_tail_of_accepts howes h
    refine ⟨64 * a + m, s, .inl (by omega), ?_, accepts_zero 0x80 0xBF s ▸ h⟩
    rw [encode_two (by omega) (by omega) hm]
    rfl
  · obtain ⟨a, ha, rfl⟩ := exists_add_of_le hlow
    obtain ⟨m, s, rfl, hm, hm', hm'', h⟩ := exists_tail_of_accepts howes h
    obtain ⟨k, s, rfl, hk, -, -, h⟩ := exists_tail_of_accepts (owes_tail 1) h
    refine ⟨64 * (64 * a + m) + k, s, by rw [IsScalar]; omega, ?_, accepts_zero 0x80 0xBF s ▸ h⟩
    rw [encode_three (by omega) (by omega) hm hk]
    rfl
  · obtain ⟨a, ha, rfl⟩ := exists_add_of_le hlow
    obtain ⟨m, s, rfl, hm, hm', hm'', h⟩ := exists_tail_of_accepts howes h
    obtain ⟨k, s, rfl, hk, -, -, h⟩ := exists_tail_of_accepts (owes_tail 2) h
    obtain ⟨l, s, rfl, hl, -, -, h⟩ := exists_tail_of_accepts (owes_tail 1) h
    refine ⟨64 * (64 * (64 * a + m) + k) + l, s, by rw [IsScalar]; omega, ?_, ?_⟩
    · rw [encode_four (by omega) hm hk hl]
      rfl
    · exact accepts_zero 0x80 0xBF s ▸ h

theorem encode_ne_nil (code : Nat) : encode code ≠ [] := by
  rw [encode]
  split_ifs <;> exact List.cons_ne_nil _ _

/-- The texts in order are those that scalar values are encoded to. -/
theorem isValid_iff {t : Text} : isValid t = true ↔
    ∃ codes : List Nat, (∀ code ∈ codes, IsScalar code) ∧ t = codes.flatMap encode := by
  constructor
  · intro h
    induction hlength : t.length using Nat.strong_induction_on generalizing t with
    | _ length ih =>
      cases t with
      | nil => exact ⟨[], List.forall_mem_nil _, rfl⟩
      | cons b t =>
          obtain ⟨code, s, hcode, heq, hs⟩ := exists_encode_append h
          have hlt : s.length < length := by
            have hpos := List.length_pos_iff.mpr (encode_ne_nil code)
            rw [← hlength, heq, List.length_append]
            omega
          obtain ⟨codes, hcodes, rfl⟩ := ih _ hlt hs rfl
          exact ⟨code :: codes, List.forall_mem_cons.mpr ⟨hcode, hcodes⟩, heq⟩
  · rintro ⟨codes, hcodes, rfl⟩
    induction codes with
    | nil => rfl
    | cons code codes ih =>
        obtain ⟨hcode, hcodes⟩ := List.forall_mem_cons.mp hcodes
        rw [List.flatMap_cons, isValid_append (isValid_encode hcode)]
        exact ih hcodes

end MusicPart.Text.Utf8
