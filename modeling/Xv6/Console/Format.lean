import Xv6.Library.Numerals

/-! Formatted output of `kern/console.c`, and what its conversions are for.

`vprintfmt` and `printint` are translated with what undefined behaviour there is: a turn
that would write behind `buf`, or a conversion without an argument, has no result. An
argument is a slot of 64 bits, of which a conversion for 32 bits reads the low half; the
caller leaves anything in the other half.
-/

set_option autoImplicit false

namespace Xv6.Console

open Library

def digit : List UInt8 := "0123456789abcdef".toList.map Char.toUInt8

-- The size of `buf` in `printint`.
def BUF : Nat := 64

-- The loop of `printint` with `room` bytes left in `buf`, which holds `buf` so far.
def fillBuf (base : UInt64) : Nat → UInt64 → List UInt8 → Option (List UInt8)
  | 0, _, _ => none
  | room + 1, t, buf =>
    let buf := buf ++ [digit.getD (t % base).toNat 0]
    let t := t / base
    if t ≠ 0 then fillBuf base room t buf else some buf

-- What `printint` sends to `uart_putchar`.
def printint (x : Int64) (base : UInt64) (sign : Bool) : Option (List UInt8) :=
  if sign ∧ x < 0 then (fillBuf base BUF (-x).toUInt64 []).map fun buf => '-'.toUInt8 :: buf.reverse
  else (fillBuf base BUF x.toUInt64 []).map List.reverse

def vaArg : List UInt64 → Option (UInt64 × List UInt64)
  | [] => none
  | slot :: ap => some (slot, ap)

-- `va_arg(ap, int)`; a narrower conversion of a slot.
def asInt (slot : UInt64) : Int32 := slot.toUInt32.toInt32

section
variable (strings : UInt64 → List UInt8) (putch : Int32 → List UInt8)

-- `putch(c)` for a character of the format.
def putChar (c : UInt8) : List UInt8 := putch c.toUInt32.toInt32

/-- The switch of `vprintfmt`: what is printed, and the arguments that are left. A string is
what `strings` finds at its address. -/
def conversion (l : Nat) (c : UInt8) (ap : List UInt64) : Option (List UInt8 × List UInt64) :=
  if c = 'u'.toUInt8 then do
    let (slot, ap) ← vaArg ap
    let text ← if l = 2 then printint slot.toInt64 10 false
      else printint slot.toUInt32.toUInt64.toInt64 10 false
    some (text, ap)
  else if c = 'd'.toUInt8 then do
    let (slot, ap) ← vaArg ap
    let text ← if l = 2 then printint slot.toInt64 10 true else printint (asInt slot).toInt64 10 true
    some (text, ap)
  else if c = 'x'.toUInt8 then do
    let (slot, ap) ← vaArg ap
    -- `va_arg(ap, int)`, where the case of `u` has `uint32_t`
    let text ← if l = 2 then printint slot.toInt64 16 false else printint (asInt slot).toInt64 16 false
    some (text, ap)
  else if c = 'p'.toUInt8 then do
    let (slot, ap) ← vaArg ap
    let text ← printint slot.toInt64 16 false
    some (text, ap)
  else if c = 'c'.toUInt8 then do
    let (slot, ap) ← vaArg ap
    some (putch (asInt slot), ap)
  else if c = 's'.toUInt8 then do
    let (slot, ap) ← vaArg ap
    let s := if slot = 0 then "(null)".toList.map Char.toUInt8 else strings slot
    some (s.flatMap (putChar putch), ap)
  else if c = '%'.toUInt8 then some (putChar putch c, ap)
  else some (putChar putch '%'.toUInt8 ++ putChar putch c, ap)

mutual

/-- The loop of `vprintfmt` over the format from `fmt[i]` on; its end is a NUL. -/
def vprintfmt : List UInt8 → List UInt64 → Option (List UInt8)
  | [], _ => some []
  | c :: fmt, ap =>
    if c = 0 then some []
    else if c ≠ '%'.toUInt8 then (vprintfmt fmt ap).map (putChar putch c ++ ·)
    else afterPercent 0 fmt ap

def afterPercent (l : Nat) : List UInt8 → List UInt64 → Option (List UInt8)
  | [], _ => some []
  | c :: fmt, ap =>
    if c = 'l'.toUInt8 then afterPercent (l + 1) fmt ap
    else if c = 0 then some []
    else do
      let (text, ap) ← conversion strings putch l c ap
      (vprintfmt fmt ap).map (text ++ ·)

end

end

/-! The numerals that the conversions are for. -/

def digitText (base n : Nat) : List UInt8 := (numeral base n).map fun d => digit.getD d 0

def spelling (base : Nat) (v : Int) : List UInt8 :=
  if v < 0 then '-'.toUInt8 :: digitText base v.natAbs else digitText base v.natAbs

def readDigits (base : Nat) (s : List UInt8) : Nat := valueOf base (s.map fun c => digit.idxOf c)

def readNumeral (base : Nat) : List UInt8 → Int
  | [] => 0
  | c :: s => if c = '-'.toUInt8 then -(readDigits base s : Int) else readDigits base (c :: s)

structure IsNumeral (base : Nat) (v : Int) (s : List UInt8) : Prop where
  canonical : ∃ ds, Canonical base ds ∧
    s = (if v < 0 then ['-'.toUInt8] else []) ++ ds.map fun d => digit.getD d 0
  back : readNumeral base s = v

section
variable {base : Nat}

theorem idxOf_digit : ∀ d < 16, digit.idxOf (digit.getD d 0) = d := by decide

theorem digit_ne_minus : ∀ d < 16, digit.getD d 0 ≠ '-'.toUInt8 := by decide

theorem readDigits_map {ds : List Nat} (small : base ≤ 16) (digits : ∀ d ∈ ds, d < base) :
    readDigits base (ds.map fun d => digit.getD d 0) = valueOf base ds := by
  have same : ds.map (fun d => digit.idxOf (digit.getD d 0)) = ds.map id := by
    apply List.map_congr_left
    intro d member
    exact idxOf_digit d (lt_of_lt_of_le (digits d member) small)
  rw [readDigits, List.map_map]
  exact congrArg (valueOf base) (same.trans (List.map_id ds))

theorem readNumeral_digits {ds : List Nat} (small : base ≤ 16) (digits : ∀ d ∈ ds, d < base) :
    readNumeral base (ds.map fun d => digit.getD d 0) = valueOf base ds := by
  have same := readDigits_map small digits
  cases ds with
  | nil => simp [readNumeral, valueOf]
  | cons d ds =>
    have noSign := digit_ne_minus d (lt_of_lt_of_le (digits d (by simp)) small)
    rw [List.map_cons] at same ⊢
    rw [readNumeral, if_neg noSign, same]

theorem isNumeral_iff (two : 1 < base) (small : base ≤ 16) {v : Int} {s : List UInt8} :
    IsNumeral base v s ↔ s = spelling base v := by
  constructor
  · intro ⟨⟨ds, canonical, spelled⟩, back⟩
    have unique := canonical.unique two
    by_cases negative : v < 0
    · rw [if_pos negative] at spelled
      rw [spelled, List.singleton_append, readNumeral, if_pos rfl, readDigits_map small canonical.digit] at back
      have value : valueOf base ds = v.natAbs := by omega
      rw [spelled, spelling, if_pos negative, digitText, ← value, unique, List.singleton_append]
    · rw [if_neg negative, List.nil_append] at spelled
      rw [spelled, readNumeral_digits small canonical.digit] at back
      have value : valueOf base ds = v.natAbs := by omega
      rw [spelled, spelling, if_neg negative, digitText, ← value, unique]
  · intro spelled
    have canonical := canonical_numeral two v.natAbs
    have value := valueOf_numeral base v.natAbs
    rw [spelled, spelling, digitText]
    by_cases negative : v < 0
    · rw [if_pos negative]
      refine ⟨⟨_, canonical, by rw [if_pos negative, List.singleton_append]⟩, ?_⟩
      rw [readNumeral, if_pos rfl, readDigits_map small canonical.digit, value]
      omega
    · rw [if_neg negative]
      refine ⟨⟨_, canonical, by rw [if_neg negative, List.nil_append]⟩, ?_⟩
      rw [readNumeral_digits small canonical.digit, value]
      omega

end

/-! What `printint` prints. -/

theorem fillBuf_numeral {base : UInt64} (two : 1 < base.toNat) (room : Nat) :
    ∀ (t : UInt64) (buf : List UInt8), (numeral base.toNat t.toNat).length ≤ room →
      fillBuf base room t buf = some (buf ++ (digitText base.toNat t.toNat).reverse) := by
  induction room with
  | zero =>
    intro t buf short
    have nonempty := (canonical_numeral two t.toNat).nonempty
    exact absurd (List.length_eq_zero_iff.mp (Nat.le_zero.mp short)) nonempty
  | succ room ih =>
    intro t buf short
    have low : (t % base).toNat = t.toNat % base.toNat := UInt64.toNat_mod t base
    have high : (t / base).toNat = t.toNat / base.toNat := UInt64.toNat_div t base
    by_cases more : base.toNat ≤ t.toNat
    · have left : t / base ≠ 0 := by
        intro zero
        have := Nat.div_pos more (by omega)
        rw [← high, zero] at this
        exact absurd this (by decide)
      rw [numeral_step two more, List.length_append, List.length_singleton] at short
      rw [fillBuf, if_pos left, ih _ _ (by rw [high]; omega), digitText, digitText, numeral_step two more, high, low]
      simp
    · have done : t / base = 0 := by
        apply UInt64.toNat_inj.mp
        rw [high, Nat.div_eq_of_lt (by omega)]
        rfl
      rw [fillBuf, if_neg (not_not.mpr done), digitText, numeral_small (by omega), low, Nat.mod_eq_of_lt (by omega)]
      simp

-- Every number of 64 bits fits into `buf`, in the bases that are used.
theorem fillBuf_fits {base : UInt64} (two : 1 < base.toNat) (t : UInt64) :
    fillBuf base BUF t [] = some (digitText base.toNat t.toNat).reverse := by
  apply fillBuf_numeral two
  apply length_numeral_le two (by decide)
  calc t.toNat < 2 ^ 64 := t.toNat_lt
    _ ≤ base.toNat ^ BUF := Nat.pow_le_pow_left two _

theorem printint_unsigned {base : UInt64} (two : 1 < base.toNat) (x : Int64) :
    printint x base false = some (spelling base.toNat x.toUInt64.toNat) := by
  have natural : ¬(x.toUInt64.toNat : Int) < 0 := by omega
  rw [printint, if_neg (by simp), fillBuf_fits two, spelling, if_neg natural]
  simp

theorem toNat_neg {x : Int64} (negative : x.toInt < 0) : (-x).toUInt64.toNat = x.toInt.natAbs := by
  have bits : (-x).toUInt64.toNat = (-x.toBitVec).toNat := rfl
  have value : x.toInt = x.toBitVec.toInt := rfl
  have range := x.toBitVec.isLt
  rw [bits, BitVec.toNat_neg]
  rw [value, BitVec.toInt_eq_toNat_cond] at negative ⊢
  split at negative <;> rename_i small
  · omega
  · rw [if_neg small]
    omega

theorem toNat_of_nonneg {x : Int64} (natural : 0 ≤ x.toInt) : (x.toUInt64.toNat : Int) = x.toInt := by
  have bits : x.toUInt64.toNat = x.toBitVec.toNat := rfl
  have value : x.toInt = x.toBitVec.toInt := rfl
  have range := x.toBitVec.isLt
  rw [bits]
  rw [value, BitVec.toInt_eq_toNat_cond] at natural ⊢
  split at natural <;> rename_i small
  · rw [if_pos small]
  · omega

/-- The most negative number is its own negation, and is printed right all the same. -/
theorem printint_signed {base : UInt64} (two : 1 < base.toNat) (x : Int64) :
    printint x base true = some (spelling base.toNat x.toInt) := by
  have sign : x < 0 ↔ x.toInt < 0 := Int64.lt_iff_toInt_lt
  by_cases negative : x.toInt < 0
  · rw [printint, if_pos ⟨rfl, sign.mpr negative⟩, fillBuf_fits two, spelling, if_pos negative, toNat_neg negative]
    simp
  · have magnitude : x.toUInt64.toNat = x.toInt.natAbs := by
      have := toNat_of_nonneg (Int.not_lt.mp negative)
      omega
    rw [printint, if_neg (fun both => negative (sign.mp both.2)), fillBuf_fits two, spelling, if_neg negative,
      magnitude]
    simp

/-! The formats made of characters and of these six conversions. -/

inductive Conv where
  | d | u | x | lld | llu | llx
deriving DecidableEq

namespace Conv

def letters : Conv → List UInt8
  | d => ['d'.toUInt8]
  | u => ['u'.toUInt8]
  | x => ['x'.toUInt8]
  | lld => ['l'.toUInt8, 'l'.toUInt8, 'd'.toUInt8]
  | llu => ['l'.toUInt8, 'l'.toUInt8, 'u'.toUInt8]
  | llx => ['l'.toUInt8, 'l'.toUInt8, 'x'.toUInt8]

def base : Conv → Nat
  | x | llx => 16
  | d | u | lld | llu => 10

def value : Conv → UInt64 → Int
  | d, slot => (asInt slot).toInt
  | u, slot | x, slot => slot.toUInt32.toNat
  | lld, slot => slot.toInt64.toInt
  | llu, slot | llx, slot => slot.toNat

-- The integer that `printint` is given to print.
def passed : Conv → UInt64 → Int
  | x, slot => (asInt slot).toInt64.toUInt64.toNat
  | k, slot => k.value slot

/-- An argument of `%x` that is not negative as an `int`. -/
def Clear : Conv → UInt64 → Prop
  | x, slot => slot.toUInt32.toNat < 2 ^ 31
  | d, _ | u, _ | lld, _ | llu, _ | llx, _ => True

theorem base_two (k : Conv) : 1 < k.base := by cases k <;> decide

theorem base_le (k : Conv) : k.base ≤ 16 := by cases k <;> decide

end Conv

/-- A part of a call of `vprintfmt`: a character, `%%`, or a conversion with its argument. -/
inductive Item where
  | lit (c : UInt8) (plain : c ≠ 0 ∧ c ≠ '%'.toUInt8)
  | percent
  | conv (k : Conv) (slot : UInt64)

namespace Item

def letters : Item → List UInt8
  | lit c _ => [c]
  | percent => ['%'.toUInt8, '%'.toUInt8]
  | conv k _ => '%'.toUInt8 :: k.letters

def slots : Item → List UInt64
  | lit _ _ | percent => []
  | conv _ slot => [slot]

def Shows (putch : Int32 → List UInt8) : Item → List UInt8 → Prop
  | lit c _, s => s = putChar putch c
  | percent, s => s = putChar putch '%'.toUInt8
  | conv k slot, s => IsNumeral k.base (k.value slot) s

def Clear : Item → Prop
  | lit _ _ | percent => True
  | conv k slot => k.Clear slot

def printed (putch : Int32 → List UInt8) : Item → List UInt8
  | lit c _ => putChar putch c
  | percent => putChar putch '%'.toUInt8
  | conv k slot => spelling k.base (k.passed slot)

end Item

def format (items : List Item) : List UInt8 := items.flatMap Item.letters

def arguments (items : List Item) : List UInt64 := items.flatMap Item.slots

/-- The output is the parts' own texts one after the other, with a numeral for each conversion. -/
def PrintsNumerals (putch : Int32 → List UInt8) (items : List Item) (out : List UInt8) : Prop :=
  ∃ texts, out = texts.flatten ∧ List.Forall₂ (Item.Shows putch) items texts

/-! One conversion, and from it a whole format. -/

section
variable (strings : UInt64 → List UInt8) (putch : Int32 → List UInt8)

-- A conversion prints the integer it passes on, and takes one argument.
theorem afterPercent_conv (k : Conv) (slot : UInt64) (fmt : List UInt8) (ap : List UInt64) :
    afterPercent strings putch 0 (k.letters ++ fmt) (slot :: ap) =
      (vprintfmt strings putch fmt ap).map (spelling k.base (k.passed slot) ++ ·) := by
  have ten : (1 : Nat) < UInt64.toNat 10 := by decide
  have sixteen : (1 : Nat) < UInt64.toNat 16 := by decide
  cases k with
  | d =>
    simp +decide [Conv.letters, afterPercent, conversion, vaArg, printint_signed ten, Conv.base, Conv.passed,
      Conv.value]
  | u =>
    simp +decide [Conv.letters, afterPercent, conversion, vaArg, printint_unsigned ten, Conv.base, Conv.passed,
      Conv.value]
  | x =>
    simp +decide [Conv.letters, afterPercent, conversion, vaArg, printint_unsigned sixteen, Conv.base, Conv.passed]
  | lld =>
    simp +decide [Conv.letters, afterPercent, conversion, vaArg, printint_signed ten, Conv.base, Conv.passed,
      Conv.value]
  | llu =>
    simp +decide [Conv.letters, afterPercent, conversion, vaArg, printint_unsigned ten, Conv.base, Conv.passed,
      Conv.value]
  | llx =>
    simp +decide [Conv.letters, afterPercent, conversion, vaArg, printint_unsigned sixteen, Conv.base, Conv.passed,
      Conv.value]

theorem vprintfmt_items (items : List Item) :
    vprintfmt strings putch (format items) (arguments items) = some (items.map (Item.printed putch)).flatten := by
  induction items with
  | nil => rfl
  | cons item items ih =>
    have letters : format (item :: items) = item.letters ++ format items := rfl
    have slots : arguments (item :: items) = item.slots ++ arguments items := rfl
    rw [letters, slots]
    cases item with
    | lit c plain => simp +decide [Item.letters, Item.slots, Item.printed, vprintfmt, plain, ih]
    | percent =>
      simp +decide [Item.letters, Item.slots, Item.printed, vprintfmt, afterPercent, conversion, ih]
    | conv k slot =>
      have first : vprintfmt strings putch ('%'.toUInt8 :: (k.letters ++ format items)) (slot :: arguments items) =
          afterPercent strings putch 0 (k.letters ++ format items) (slot :: arguments items) := by
        simp +decide [vprintfmt]
      rw [Item.letters, Item.slots, List.cons_append, List.singleton_append, first, afterPercent_conv, ih]
      simp +decide [Item.printed]

end

/-! Where the integer that is passed on is the argument. -/

theorem Conv.passed_of_clear {k : Conv} {slot : UInt64} (clear : k.Clear slot) : k.passed slot = k.value slot := by
  cases k with
  | x =>
    have small : slot.toUInt32.toNat < 2 ^ 31 := clear
    have same : (asInt slot).toInt64.toInt = slot.toUInt32.toNat := by
      have value : (asInt slot).toInt = slot.toUInt32.toBitVec.toInt := rfl
      have bits : slot.toUInt32.toBitVec.toNat = slot.toUInt32.toNat := rfl
      rw [Int32.toInt_toInt64, value, BitVec.toInt_eq_toNat_cond, if_pos (by omega), bits]
    have natural : 0 ≤ (asInt slot).toInt64.toInt := by omega
    exact (toNat_of_nonneg natural).trans same
  | d | u | lld | llu | llx => rfl

theorem Conv.passed_of_not_clear {k : Conv} {slot : UInt64} (high : ¬k.Clear slot) :
    k = x ∧ 2 ^ 32 ≤ (k.passed slot).natAbs := by
  cases k with
  | x =>
    have large : ¬slot.toUInt32.toNat < 2 ^ 31 := high
    have bound : slot.toUInt32.toNat < 2 ^ 32 := slot.toUInt32.toNat_lt
    have negative : (asInt slot).toInt64.toInt = slot.toUInt32.toNat - 2 ^ 32 := by
      have value : (asInt slot).toInt = slot.toUInt32.toBitVec.toInt := rfl
      have bits : slot.toUInt32.toBitVec.toNat = slot.toUInt32.toNat := rfl
      rw [Int32.toInt_toInt64, value, BitVec.toInt_eq_toNat_cond, if_neg (by omega), bits]
      rfl
    have passed : (passed x slot).natAbs = (asInt slot).toInt64.toBitVec.toNat := rfl
    have wide : (asInt slot).toInt64.toInt = (asInt slot).toInt64.toBitVec.toInt := rfl
    rw [wide, BitVec.toInt_eq_toNat_cond] at negative
    refine ⟨rfl, ?_⟩
    rw [passed]
    split at negative <;> omega
  | d | u | lld | llu | llx => exact absurd trivial high

section
variable {putch : Int32 → List UInt8} {item : Item}

theorem Item.shows_printed (clear : item.Clear) : item.Shows putch (item.printed putch) := by
  cases item with
  | lit c plain => rfl
  | percent => rfl
  | conv k slot =>
    have same : k.passed slot = k.value slot := Conv.passed_of_clear clear
    apply (isNumeral_iff k.base_two k.base_le).mpr
    rw [printed, same]

theorem length_spelling_le {base k : Nat} {v : Int} (two : 1 < base) (some : 0 < k) (natural : 0 ≤ v)
    (small : v.natAbs < base ^ k) : (spelling base v).length ≤ k := by
  rw [spelling, if_neg (Int.not_lt.mpr natural), digitText, List.length_map]
  exact length_numeral_le two some small

theorem lt_length_spelling {base k : Nat} {v : Int} (two : 1 < base) (large : base ^ k ≤ v.natAbs) :
    k < (spelling base v).length := by
  have digits : k < (digitText base v.natAbs).length := by
    rw [digitText, List.length_map]
    by_contra short
    exact absurd (lt_of_length_le two (Nat.not_lt.mp short)) (Nat.not_lt.mpr large)
  unfold spelling
  split
  · exact Nat.lt_succ_of_lt digits
  · exact digits

/-- Nothing that the code prints is too short, and a negative argument of `%x` is printed in
more digits than it has. -/
theorem Item.Shows.length_le {s : List UInt8} (shows : item.Shows putch s) :
    s.length ≤ (item.printed putch).length ∧ (s.length = (item.printed putch).length → item.Clear) := by
  cases item with
  | lit c plain => exact ⟨le_of_eq (congrArg List.length shows), fun _ => trivial⟩
  | percent => exact ⟨le_of_eq (congrArg List.length shows), fun _ => trivial⟩
  | conv k slot =>
    have spelled := (isNumeral_iff k.base_two k.base_le).mp shows
    by_cases clear : k.Clear slot
    · rw [spelled, printed, Conv.passed_of_clear clear]
      exact ⟨le_refl _, fun _ => clear⟩
    · obtain ⟨rfl, large⟩ := Conv.passed_of_not_clear clear
      have short : (spelling 16 (Conv.value .x slot)).length ≤ 8 := by
        apply length_spelling_le (by decide) (by decide) (Int.natCast_nonneg _)
        exact slot.toUInt32.toNat_lt
      have long : 8 < (spelling 16 (Conv.passed .x slot)).length := lt_length_spelling (by decide) large
      rw [spelled, printed]
      constructor
      · exact le_of_lt (lt_of_le_of_lt short long)
      · intro same
        exact absurd (same ▸ short) (Nat.not_le.mpr long)

theorem clear_of_texts {items : List Item} {texts : List (List UInt8)}
    (shows : List.Forall₂ (Item.Shows putch) items texts) :
    texts.flatten.length ≤ (items.map (Item.printed putch)).flatten.length ∧
      (texts.flatten.length = (items.map (Item.printed putch)).flatten.length → ∀ item ∈ items, item.Clear) := by
  induction shows with
  | nil => exact ⟨le_refl _, fun _ _ member => absurd member List.not_mem_nil⟩
  | cons first rest ih =>
    have one := first.length_le
    rw [List.map_cons, List.flatten_cons, List.flatten_cons, List.length_append, List.length_append]
    constructor
    · exact Nat.add_le_add one.1 ih.1
    · intro same item member
      have := one.1
      have := ih.1
      cases member with
      | head => exact one.2 (by omega)
      | tail _ member => exact ih.2 (by omega) item member

end

/-- Every conversion prints the numeral of its own argument just if no argument of `%x` is
negative as an `int`. No write of `printint` leaves its buffer, since there is an output. -/
theorem vprintfmt_numerals_iff (strings : UInt64 → List UInt8) (putch : Int32 → List UInt8) (items : List Item) :
    ∃ out, vprintfmt strings putch (format items) (arguments items) = some out ∧
      (PrintsNumerals putch items out ↔ ∀ item ∈ items, item.Clear) := by
  refine ⟨_, vprintfmt_items strings putch items, ?_, ?_⟩
  · intro ⟨texts, same, shows⟩
    exact (clear_of_texts shows).2 (congrArg List.length same).symm
  · intro clear
    refine ⟨_, rfl, ?_⟩
    rw [List.forall₂_map_right_iff, List.forall₂_same]
    intro item member
    exact Item.shows_printed (clear item member)

-- `uart_putchar`
def uartPutchar (c : Int32) : List UInt8 := [c.toUInt32.toUInt8]

def fraction (d x : UInt64) : List Item := [.conv .d d, .lit '/'.toUInt8 (by decide), .conv .x x, .percent]

theorem vprintfmt_numerals_iff_fraction :
    (∃ out, vprintfmt (fun _ => []) uartPutchar (format (fraction 0xFFFFFFFF 255))
        (arguments (fraction 0xFFFFFFFF 255)) = some out ∧ PrintsNumerals uartPutchar (fraction 0xFFFFFFFF 255) out) ∧
      ∃ out, vprintfmt (fun _ => []) uartPutchar (format (fraction 7 0x80000000))
        (arguments (fraction 7 0x80000000)) = some out ∧ ¬PrintsNumerals uartPutchar (fraction 7 0x80000000) out := by
  obtain ⟨out, printed, right⟩ := vprintfmt_numerals_iff (fun _ => []) uartPutchar (fraction 0xFFFFFFFF 255)
  obtain ⟨out', printed', wrong⟩ := vprintfmt_numerals_iff (fun _ => []) uartPutchar (fraction 7 0x80000000)
  refine ⟨⟨out, printed, right.mpr ?_⟩, out', printed', fun numerals => ?_⟩
  · simp [fraction, Item.Clear, Conv.Clear]
  · have clear := wrong.mp numerals (.conv .x 0x80000000) (by simp [fraction])
    exact absurd clear (by decide : ¬(2147483648 : Nat) < 2 ^ 31)

/-- `cprintf("%x", 0x80000000)` prints sixteen digits for a number of eight. -/
theorem hexadecimal_sign_extended :
    vprintfmt (fun _ => []) uartPutchar ("%x".toList.map Char.toUInt8) [0x80000000] =
        some ("ffffffff80000000".toList.map Char.toUInt8) ∧
      ("%x".toList.map Char.toUInt8, [0x80000000]) =
        (format [.conv .x 0x80000000], arguments [.conv .x 0x80000000]) ∧
      ¬PrintsNumerals uartPutchar [.conv .x 0x80000000] ("ffffffff80000000".toList.map Char.toUInt8) := by
  refine ⟨by decide +kernel, by decide, ?_⟩
  intro ⟨texts, same, shows⟩
  have length : texts.flatten.length = ([Item.conv .x 0x80000000].map (Item.printed uartPutchar)).flatten.length := by
    rw [← same]
    decide +kernel
  have clear := (clear_of_texts shows).2 length (.conv .x 0x80000000) (by simp)
  exact absurd clear (by decide : ¬(2147483648 : Nat) < 2 ^ 31)

end Xv6.Console
