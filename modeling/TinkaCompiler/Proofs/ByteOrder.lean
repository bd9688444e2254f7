import Mathlib.Algebra.GroupWithZero.Nat
import Mathlib.Tactic.SplitIfs

/-! Texts that are in order by their characters are in order by their bytes.

The first byte of a character grows with the number of bytes behind it and with the upper bits
of the character. Where it is the same for two characters, as many bytes follow, and they hold
the lower bits, the higher of them first. -/

set_option autoImplicit false

namespace TinkaCompiler.Text

def bytes (text : String) : List UInt8 :=
  text.toUTF8.data.toList

def following (scalar : Nat) : Nat :=
  if scalar ≤ 127 then 0 else if scalar ≤ 2047 then 1 else if scalar ≤ 65535 then 2 else 3

/-- The first byte: a mark for the number of bytes, and the upper bits of the character. -/
def lead (scalar : Nat) : Nat :=
  if scalar ≤ 127 then scalar
  else if scalar ≤ 2047 then scalar / 64 + 192
  else if scalar ≤ 65535 then scalar / 4096 + 224
  else scalar / 262144 + 240

def trail : Nat → Nat → List UInt8
  | 0, _ => []
  | count + 1, scalar => UInt8.ofNat (scalar / 64 ^ count % 64 + 128) :: trail count scalar

theorem toNat_lt (c : Char) : c.toNat < 1114112 := by
  rcases c.valid with low | ⟨_, high⟩
  · exact Nat.lt_trans low (by decide)
  · exact high

theorem lead_lt (c : Char) : lead c.toNat < 256 := by
  have limit := toNat_lt c
  unfold lead
  split_ifs <;> omega

theorem utf8EncodeChar_eq (c : Char) :
    String.utf8EncodeChar c = UInt8.ofNat (lead c.toNat) :: trail (following c.toNat) c.toNat := by
  have limit := toNat_lt c
  unfold String.utf8EncodeChar lead following
  simp only [Char.toNat_val]
  generalize c.toNat = scalar at *
  split
  · rfl
  · split
    · have upper : scalar / 64 % 32 = scalar / 64 := by omega
      simp [trail, upper]
    · split
      · have upper : scalar / 4096 % 16 = scalar / 4096 := by omega
        simp [trail, upper]
      · have upper : scalar / 262144 % 8 = scalar / 262144 := by omega
        simp [trail, upper]

theorem lead_cases {scalar other : Nat} (less : scalar < other) :
    lead scalar < lead other ∨
      lead scalar = lead other ∧ following scalar = following other ∧
        scalar / 64 ^ following scalar = other / 64 ^ following scalar := by
  unfold lead following
  split_ifs <;> omega

theorem cons_lt_cons_iff {byte other : Nat} (small : byte < 256) (otherSmall : other < 256)
    {rest others : List UInt8} :
    UInt8.ofNat byte :: rest < UInt8.ofNat other :: others ↔
      byte < other ∨ byte = other ∧ rest < others := by
  rw [List.cons_lt_cons_iff, UInt8.ofNat_lt_iff_lt small otherSmall, ← UInt8.toNat_inj,
    UInt8.toNat_ofNat_of_lt' small, UInt8.toNat_ofNat_of_lt' otherSmall]

/-- Characters with the same upper bits are told apart by the bytes of their lower bits, whatever
follows them. -/
theorem trail_append_lt {count scalar other : Nat} (less : scalar < other)
    (upper : scalar / 64 ^ count = other / 64 ^ count) (more behind : List UInt8) :
    trail count scalar ++ more < trail count other ++ behind := by
  induction count with
  | zero =>
      rw [Nat.pow_zero, Nat.div_one, Nat.div_one] at upper
      exact absurd upper (Nat.ne_of_lt less)
  | succ count ih =>
      rw [trail, trail, List.cons_append, List.cons_append, cons_lt_cons_iff (by omega) (by omega)]
      rw [Nat.pow_succ, ← Nat.div_div_eq_div_mul, ← Nat.div_div_eq_div_mul] at upper
      -- The next byte holds the next six bits. Where it is the same, the bytes behind it decide.
      have ordered : scalar / 64 ^ count ≤ other / 64 ^ count :=
        Nat.div_le_div_right (Nat.le_of_lt less)
      rcases Nat.lt_or_eq_of_le ordered with below | same
      · exact Or.inl (by omega)
      · exact Or.inr ⟨by rw [same], ih same⟩

theorem utf8EncodeChar_append_lt {c other : Char} (less : c < other) (more behind : List UInt8) :
    String.utf8EncodeChar c ++ more < String.utf8EncodeChar other ++ behind := by
  have scalars : c.toNat < other.toNat := less
  rw [utf8EncodeChar_eq, utf8EncodeChar_eq, List.cons_append, List.cons_append,
    cons_lt_cons_iff (lead_lt c) (lead_lt other)]
  rcases lead_cases scalars with below | ⟨same, width, upper⟩
  · exact Or.inl below
  · rw [← width]
    exact Or.inr ⟨same, trail_append_lt scalars upper more behind⟩

theorem flatMap_lt {text other : List Char} (less : text < other) :
    text.flatMap String.utf8EncodeChar < other.flatMap String.utf8EncodeChar := by
  induction less with
  | @nil c rest =>
      rw [List.flatMap_nil, List.flatMap_cons, utf8EncodeChar_eq, List.cons_append]
      exact List.nil_lt_cons _ _
  | rel less =>
      rw [List.flatMap_cons, List.flatMap_cons]
      exact utf8EncodeChar_append_lt less _ _
  | cons _ ih =>
      rw [List.flatMap_cons, List.flatMap_cons]
      exact List.append_left_lt ih

theorem bytes_eq_flatMap (text : String) :
    bytes text = text.toList.flatMap String.utf8EncodeChar := by
  rw [bytes, String.toUTF8_eq_toByteArray, ← String.utf8Encode_toList, List.utf8Encode,
    List.data_toByteArray]

theorem bytes_lt_of_lt {first second : String} (less : first < second) :
    bytes first < bytes second := by
  rw [bytes_eq_flatMap, bytes_eq_flatMap]
  exact flatMap_lt (String.lt_iff.mp less)

end TinkaCompiler.Text
