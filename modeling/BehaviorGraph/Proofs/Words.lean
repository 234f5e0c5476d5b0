/-
# Words as numbers

A constant holds a word of 128 bits, of which its type counts the low ones.  This module says what
normalizing a word does to the number it stands for: without a sign it is **the remainder modulo
two to the width** (`toInt_truncate`), with a sign **the remainder that is nearest to zero**
(`toInt_extend`).  The bits of a width are what is left of a number modulo two to that width
(`setWidth_eq_iff`), so a type has one constant for each pattern of its bits (`normalize_eq_iff`).

The exception is `wholeWidth`.  A word of 127 bits is not cut, though it has one bit more, and so
two constants of that width may agree on all their bits (`Constant.bits_determine`).

Words are normalized in signed arithmetic of 128 bits.  `ValueType.normalize?` does it step by step
and gives up when a number does not fit, which never happens (`normalize?_eq`).
-/
import BehaviorGraph.Proofs.Histories
import Mathlib

namespace BehaviorGraph

/-! ## 1. Bits as remainders -/

section Bits

variable {v w : Nat} {m n : Int}

/-- Numbers have the same low bits if they are congruent. -/
theorem ofInt_eq_ofInt_iff : BitVec.ofInt w m = BitVec.ofInt w n ↔ m ≡ n [ZMOD 2 ^ w] := by
  have hm : 0 ≤ m % 2 ^ w := Int.emod_nonneg m (by positivity)
  have hn : 0 ≤ n % 2 ^ w := Int.emod_nonneg n (by positivity)
  rw [← BitVec.toNat_inj, BitVec.toNat_ofInt, BitVec.toNat_ofInt, Int.ModEq]
  push_cast
  omega

/-- A remainder nearest to zero is a remainder. -/
theorem bmod_modEq (n : Int) (h : w ≤ v) : n.bmod (2 ^ v) ≡ n [ZMOD 2 ^ w] := by
  have hsame : n.bmod (2 ^ v) % ((2 ^ v : Nat) : Int) = n % ((2 ^ v : Nat) : Int) := Int.bmod_emod
  push_cast at hsame
  exact Int.ModEq.of_dvd (pow_dvd_pow 2 h) hsame

/-- The low bits of a word are those of its number. -/
theorem ofInt_toInt_of_le (x : BitVec v) (h : w ≤ v) : BitVec.ofInt w x.toInt = x.setWidth w := by
  rw [← BitVec.ofNat_toNat, ← BitVec.ofInt_natCast, ofInt_eq_ofInt_iff, BitVec.toInt_eq_toNat_bmod]
  exact bmod_modEq _ h

/-- **Words agree on their low bits if their numbers are congruent.** -/
theorem setWidth_eq_iff {x y : BitVec v} (h : w ≤ v) :
    x.setWidth w = y.setWidth w ↔ x.toInt ≡ y.toInt [ZMOD 2 ^ w] := by
  rw [← ofInt_toInt_of_le x h, ← ofInt_toInt_of_le y h, ofInt_eq_ofInt_iff]

theorem setWidth_ofInt (n : Int) (h : w ≤ v) :
    (BitVec.ofInt v n).setWidth w = BitVec.ofInt w n := by
  rw [← ofInt_toInt_of_le _ h, ofInt_eq_ofInt_iff, BitVec.toInt_ofInt]
  exact bmod_modEq n h

end Bits

/-! ## 2. Normalized words -/

theorem not_wholeWidth_le_iff {width : Nat} : ¬ wholeWidth ≤ width ↔ width ≤ 126 := by
  unfold wholeWidth
  omega

namespace Word

variable {width : Nat}

/-- The numbers a word stands for. -/
def Fits (n : Int) : Prop := -2 ^ 127 ≤ n ∧ n < 2 ^ 127

instance (n : Int) : Decidable (Fits n) := inferInstanceAs (Decidable (_ ∧ _))

theorem toInt_ofInt {n : Int} (h : Fits n) : (BitVec.ofInt 128 n).toInt = n := by
  obtain ⟨hlow, hhigh⟩ := h
  rw [BitVec.toInt_ofInt]
  exact Int.bmod_eq_of_le (by omega) (by omega)

/-- Bits padded with zeros stand for the number they are without a sign. -/
theorem toInt_setWidth (bits : BitVec width) (h : width ≤ 126) :
    (bits.setWidth 128).toInt = bits.toNat := by
  have hlt : bits.toNat < 2 ^ 126 := bits.isLt.trans_le (Nat.pow_le_pow_right (by omega) h)
  rw [BitVec.toInt_setWidth]
  exact Int.bmod_eq_of_le (by omega) (by omega)

/-- **Without a sign a normalized word stands for the remainder.** -/
theorem toInt_truncate (word : Word) (h : width ≤ 126) :
    (truncate word width).toInt = word.toInt % 2 ^ width := by
  rw [truncate, if_neg (not_wholeWidth_le_iff.mpr h), toInt_setWidth _ h, BitVec.toNat_setWidth,
    BitVec.toInt_eq_toNat_bmod]
  push_cast
  exact (bmod_modEq (v := 128) (w := width) word.toNat (by omega)).symm

/-- **With a sign it stands for the remainder that is nearest to zero.** -/
theorem toInt_extend (word : Word) (h : width ≤ 126) :
    (extend word width).toInt = word.toInt.bmod (2 ^ width) := by
  have hdvd : 2 ^ width ∣ 2 ^ 128 := pow_dvd_pow 2 (by omega)
  rw [extend, if_neg (not_wholeWidth_le_iff.mpr h), BitVec.toInt_signExtend_of_le (by omega),
    BitVec.toInt_setWidth, BitVec.toInt_eq_toNat_bmod, Int.bmod_bmod_of_dvd hdvd]

end Word

namespace ValueType

variable {type : ValueType} {word word' : Word}

theorem normalize_of_whole (h : wholeWidth ≤ type.width) (word : Word) :
    type.normalize word = word := by
  simp [normalize, Word.extend, Word.truncate, h]

/-- Normalizing keeps the bits of the type. -/
theorem setWidth_normalize (type : ValueType) (word : Word) :
    (type.normalize word).setWidth type.width = word.setWidth type.width := by
  by_cases hwhole : wholeWidth ≤ type.width
  · rw [normalize_of_whole hwhole]
  · have hle : type.width ≤ 128 := (not_wholeWidth_le_iff.mp hwhole).trans (by omega)
    unfold normalize Word.extend Word.truncate
    rw [if_neg hwhole, if_neg hwhole]
    split
    · exact Word.setWidth_signExtend _ hle
    · rw [BitVec.setWidth_setWidth_of_le _ hle, BitVec.setWidth_eq]

/-- **A normalized word is known by the bits of its type**, unless the type is one bit short of a
word. -/
theorem normalize_eq_iff (h : type.width ≤ 128) (hne : type.width ≠ wholeWidth) :
    type.normalize word = type.normalize word' ↔
      word.setWidth type.width = word'.setWidth type.width := by
  constructor
  · intro hsame
    rw [← setWidth_normalize, hsame, setWidth_normalize]
  · intro hbits
    by_cases hwhole : wholeWidth ≤ type.width
    · have hfull : type.width = 128 := by
        unfold wholeWidth at hwhole hne
        omega
      rw [hfull, BitVec.setWidth_eq, BitVec.setWidth_eq] at hbits
      rw [hbits]
    · simp only [normalize, Word.extend, Word.truncate, if_neg hwhole, hbits]

/-- **The numbers a type is meant for.** -/
def Holds (type : ValueType) (n : Int) : Prop :=
  if type.isSigned then -2 ^ (type.width - 1) ≤ n ∧ n < 2 ^ (type.width - 1)
  else 0 ≤ n ∧ n < 2 ^ type.width

/-- A normalized word stands for a number of its type. -/
theorem holds_normalize (h : type.width ≤ 126) (word : Word) :
    type.Holds (type.normalize word).toInt := by
  unfold Holds normalize
  split
  · rw [Word.toInt_extend word h, ← BitVec.toInt_ofInt]
    exact ⟨BitVec.le_toInt _, BitVec.toInt_lt⟩
  · rw [Word.toInt_truncate word h]
    exact ⟨Int.emod_nonneg _ (by positivity), Int.emod_lt_of_pos _ (by positivity)⟩

end ValueType

/-! ## 3. Signed arithmetic that does not overflow -/

namespace Word

variable {width : Nat}

/-- The word of a number, if it fits. -/
def ofInt? (n : Int) : Option Word := if Fits n then some (BitVec.ofInt 128 n) else none

/-- The low bits of a word, by the mask of two to the width less one. -/
def truncate? (word : Word) (width : Nat) : Option Word :=
  if wholeWidth ≤ width then some word
  else do
    let power ← ofInt? (2 ^ width)
    let mask ← ofInt? (power.toInt - 1)
    return word &&& mask

theorem fits_two_pow (h : width ≤ 126) : Fits (2 ^ width) := by
  have hlow : (0 : Int) < 2 ^ width := by positivity
  have hhigh : (2 : Int) ^ width ≤ 2 ^ 126 := pow_le_pow_right₀ (by norm_num) h
  exact ⟨by omega, by omega⟩

theorem fits_toInt (bits : BitVec width) (h : width ≤ 126) : Fits bits.toInt := by
  have hlow := bits.le_toInt
  have hhigh := bits.toInt_lt
  have hpow : (2 : Int) ^ (width - 1) ≤ 2 ^ 126 := pow_le_pow_right₀ (by norm_num) (by omega)
  exact ⟨by omega, by omega⟩

/-- Masking a word cuts it. -/
theorem and_mask (word : Word) (width : Nat) :
    word &&& BitVec.ofInt 128 (2 ^ width - 1) = (BitVec.setWidth width word).setWidth 128 := by
  have hnat : (2 : Int) ^ width - 1 = ((2 ^ width - 1 : Nat) : Int) := by
    rw [Nat.cast_sub Nat.one_le_two_pow]
    push_cast
    rfl
  rw [hnat, BitVec.ofInt_natCast]
  refine BitVec.eq_of_getLsbD_eq fun i hi => ?_
  rw [BitVec.getLsbD_and, BitVec.getLsbD_ofNat, Nat.testBit_two_pow_sub_one,
    BitVec.getLsbD_setWidth, BitVec.getLsbD_setWidth, decide_eq_true hi, Bool.true_and,
      Bool.true_and, Bool.and_comm]

/-- **Cutting a word never overflows.** -/
theorem truncate?_eq (word : Word) (width : Nat) :
    truncate? word width = some (truncate word width) := by
  unfold truncate? truncate
  split
  · rfl
  · rename_i hwhole
    have hpower := fits_two_pow (not_wholeWidth_le_iff.mp hwhole)
    have hmask : Fits (2 ^ width - 1) := by
      have hpos : (0 : Int) < 2 ^ width := by positivity
      have hhigh := hpower.2
      exact ⟨by omega, by omega⟩
    simp only [ofInt?, if_pos hpower, Option.bind_eq_bind, Option.bind_some,
      toInt_ofInt hpower, if_pos hmask, and_mask]
    rfl

end Word

/-- **Normalizing in signed arithmetic**: the low bits of a word, less two to the width if the type
has a sign and the highest of them is set. -/
def ValueType.normalize? (type : ValueType) (word : Word) : Option Word := do
  let bits ← Word.truncate? word type.width
  if type.isSigned ∧ 0 < type.width ∧ type.width < wholeWidth ∧ bits.getLsbD (type.width - 1) then
    let power ← Word.ofInt? (2 ^ type.width)
    Word.ofInt? (bits.toInt - power.toInt)
  else return bits

/-- **Normalizing a word never overflows.** -/
theorem ValueType.normalize?_eq (type : ValueType) (word : Word) :
    type.normalize? word = some (type.normalize word) := by
  unfold normalize? normalize
  rw [Word.truncate?_eq, Option.bind_eq_bind, Option.bind_some]
  by_cases hwhole : wholeWidth ≤ type.width
  · simp [Word.truncate, Word.extend, hwhole, Nat.not_lt.mpr hwhole]
  · have hwidth := not_wholeWidth_le_iff.mp hwhole
    have hpower := Word.fits_two_pow hwidth
    rw [Word.truncate, Word.extend, if_neg hwhole, if_neg hwhole]
    generalize BitVec.setWidth type.width word = bits
    have hmsb : (bits.setWidth 128).getLsbD (type.width - 1) = bits.msb := by
      rw [BitVec.getLsbD_setWidth, BitVec.msb_eq_getLsbD_last, decide_eq_true (by omega),
        Bool.true_and]
    rw [hmsb]
    by_cases hsign : type.isSigned = true ∧ bits.msb = true
    · obtain ⟨hsigned, hset⟩ := hsign
      have hpos : 0 < type.width := by
        by_contra hzero
        rw [BitVec.msb_eq_getLsbD_last, BitVec.getLsbD_of_ge _ _ (by omega)] at hset
        exact absurd hset (by simp)
      have hnumber : (bits.toNat : Int) - 2 ^ type.width = bits.toInt := by
        rw [BitVec.toInt_eq_msb_cond, if_pos hset]
        push_cast
        rfl
      rw [if_pos ⟨hsigned, hpos, Nat.lt_of_not_le hwhole, hset⟩, if_pos hsigned, Word.ofInt?,
        if_pos hpower, Option.bind_some, Word.toInt_setWidth bits hwidth, Word.toInt_ofInt hpower,
          hnumber, Word.ofInt?,
        if_pos (Word.fits_toInt bits hwidth)]
      rfl
    · rw [if_neg fun hall => hsign ⟨hall.1, hall.2.2.2⟩]
      split
      · rename_i hsigned
        have hclear : bits.msb = false := by simpa [hsigned] using hsign
        rw [BitVec.signExtend_eq_setWidth_of_msb_false hclear]
        rfl
      · rfl

/-! ## 4. One constant for each pattern of bits -/

namespace Constant

variable {type : ValueType} {c c' : Constant}

theorem ofWord_eq_iff {word word' : Word} :
    ofWord word type = ofWord word' type ↔ type.normalize word = type.normalize word' := by
  simp [ofWord]

/-- The low bits of a constant. -/
def lowBits (c : Constant) (width : Nat) : BitVec width := c.word.setWidth width

/-- A constant has the bits of the word it is made of. -/
theorem lowBits_ofWord {width : Nat} (h : type.width = width) (word : Word) :
    (ofWord word type).lowBits width = word.setWidth width := by
  subst h
  exact type.setWidth_normalize word

/-- A constant is made of its own word. -/
theorem ofWord_word (c : Constant) : ofWord c.word c.type = c := by
  obtain ⟨word, type, normal⟩ := c
  simp only [ofWord, normal]

/-- **Constants of one type that agree on its bits are the same**, unless the type is one bit short
of a word. -/
theorem eq_of_bits (h : type.width ≤ 128) (hne : type.width ≠ wholeWidth) (hc : c.type = type)
    (hc' : c'.type = type) (hbits : c.lowBits type.width = c'.lowBits type.width) : c = c' := by
  subst hc
  rw [← c.ofWord_word, ← c'.ofWord_word, hc', ofWord_eq_iff]
  exact (ValueType.normalize_eq_iff h hne).mpr hbits

/-- Numbers have the same constant if they are congruent, unless the type is one bit short of a
word. -/
theorem ofInt_eq_iff (h : type.width ≤ 128) (hne : type.width ≠ wholeWidth) (m n : Int) :
    ofInt m type = ofInt n type ↔ m ≡ n [ZMOD 2 ^ type.width] := by
  rw [ofInt, ofInt, ofWord_eq_iff, ValueType.normalize_eq_iff h hne, setWidth_ofInt _ h,
    setWidth_ofInt _ h, ofInt_eq_ofInt_iff]

theorem value_ofWord_modEq (h : type.width ≤ 128) (word : Word) :
    (ofWord word type).value ≡ word.toInt [ZMOD 2 ^ type.width] :=
  (setWidth_eq_iff h).mp (lowBits_ofWord rfl word)

/-- A constant stands for a number congruent to the one it was made of. -/
theorem value_ofInt_modEq (h : type.width ≤ 128) (n : Int) :
    (ofInt n type).value ≡ n [ZMOD 2 ^ type.width] := by
  refine (value_ofWord_modEq h _).trans ?_
  rw [BitVec.toInt_ofInt]
  exact bmod_modEq n h

/-- Where words are not cut a constant stands for the number it was made of. -/
theorem value_ofInt_of_whole (h : wholeWidth ≤ type.width) {n : Int} (hfits : Word.Fits n) :
    (ofInt n type).value = n := by
  show (type.normalize (BitVec.ofInt 128 n)).toInt = n
  rw [ValueType.normalize_of_whole h, Word.toInt_ofInt hfits]

/-- **The bits of a type determine its constants, except at 127 bits.**

Numbers have the same constant exactly if they are congruent modulo two to the width, and the
constant stands for the congruent number of its type; so in a reachable graph no two members are
constants of one type with the same bits, and adding such a constant answers the member that is
there.  At 127 bits a constant stands for the very number it was made of, whether or not the type
is meant for it, and numbers that are merely congruent have different constants. -/
theorem bits_determine (type : ValueType) (hwidth : type.width ≤ 128) :
    (∀ m n, Word.Fits m → Word.Fits n →
      (type.width ≠ wholeWidth → (ofInt m type = ofInt n type ↔ m ≡ n [ZMOD 2 ^ type.width])) ∧
      (type.width = wholeWidth → (ofInt m type = ofInt n type ↔ m = n))) ∧
    (∀ n, Word.Fits n →
      (ofInt n type).value ≡ n [ZMOD 2 ^ type.width] ∧
      (type.width < wholeWidth → type.Holds (ofInt n type).value) ∧
      (type.width = wholeWidth → (ofInt n type).value = n)) ∧
    ∀ g id c c', Graph.Reachable g → type.width ≠ wholeWidth → g.member? id = some (.const c) →
      c.type = type → c'.type = type → c.lowBits type.width = c'.lowBits type.width →
        (Graph.add (.const c') g).result = .ok id ∧
        ∀ other, g.member? other = some (.const c') → other = id := by
  refine ⟨fun m n hm hn => ⟨fun hne => ofInt_eq_iff hwidth hne m n, fun hwhole => ?_⟩, fun n hn =>
    ⟨value_ofInt_modEq hwidth n, fun hlt => ?_, fun hwhole => value_ofInt_of_whole hwhole.ge hn⟩,
      ?_⟩
  · refine ⟨fun hsame => ?_, fun hsame => hsame ▸ rfl⟩
    rw [← value_ofInt_of_whole hwhole.ge hm, hsame, value_ofInt_of_whole hwhole.ge hn]
  · exact ValueType.holds_normalize (not_wholeWidth_le_iff.mp hlt.not_ge) _
  · intro g id c c' hreachable hne hmember hc hc' hbits
    obtain rfl := eq_of_bits hwidth hne hc hc' hbits
    have hpooled : g.pooled? (.const c) = some id :=
      hreachable.kept.pooled?_eq_some_iff.mpr ⟨hmember, rfl⟩
    refine ⟨?_, fun other hother => hreachable.kept.unique_member hother hmember rfl⟩
    rw [(Graph.add_unique hreachable.kept rfl).1, hpooled, Option.getD_some]

/-- Of 127 bits, minus one and the largest word are congruent and have different constants; of 8
bits they have one, and one node. -/
theorem bits_determine_minusOne :
    ofInt (-1) (.uint 127) ≠ ofInt (2 ^ 127 - 1) (.uint 127) ∧
    (-1 : Int) ≡ 2 ^ 127 - 1 [ZMOD 2 ^ 127] ∧
    (ofInt (-1) (.uint 127)).value = -1 ∧ ofInt (-1) (.uint 8) = ofInt (2 ^ 127 - 1) (.uint 8) ∧
    (Graph.add (.const (ofInt (2 ^ 127 - 1) (.uint 8)))
      (Graph.add (.const (ofInt (-1) (.uint 8))) (Graph.empty "f")).state).result = .ok ⟨0⟩ := by
  obtain ⟨hsame, hvalue, -⟩ := bits_determine (.uint 127) (by decide)
  obtain ⟨hsame', -, hadd⟩ := bits_determine (.uint 8) (by decide)
  have hmember : (Graph.add (.const (ofInt (-1) (.uint 8))) (Graph.empty "f")).state.member? ⟨0⟩
      = some (.const (ofInt (-1) (.uint 8))) := by cbv
  have hreachable : (Graph.add (.const (ofInt (-1) (.uint 8))) (Graph.empty "f")).state.Reachable :=
    .move (.empty "f") (.add _)
  refine ⟨fun hbad => ?_, by decide, (hvalue (-1) (by decide)).2.2 rfl, ?_, ?_⟩
  · exact absurd (((hsame _ _ (by decide) (by decide)).2 rfl).mp hbad) (by norm_num)
  · exact ((hsame' _ _ (by decide) (by decide)).1 (by decide)).mpr (by decide)
  · exact (hadd _ _ _ _ hreachable (by decide) hmember rfl rfl (by decide)).1

end Constant

end BehaviorGraph
