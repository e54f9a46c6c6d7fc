import Nupp.Lib.Binary64
import Nupp.Lib.Loop
import Nupp.Lib.LuaBit
import Mathlib.Data.Int.ModEq
import Mathlib.Tactic.Ring
import Nupp.Lib.BitCount

/-! The families `i32` and `u32` of `runtime/math`. Numbers are doubles that hold integers, and every sum, product,
quotient and remainder of theirs is rounded. -/

namespace Nupp.math

open Binary64 LuaBit

/-! A double that is large is an integer too, so the floors change no sum and no product. -/

def plus (a c : ℤ) : ℤ := ⌊fl (a + c : ℤ)⌋

def minus (a c : ℤ) : ℤ := ⌊fl (a - c : ℤ)⌋

def times (a c : ℤ) : ℤ := ⌊fl (a * c : ℤ)⌋

/-- `math.floor(a / c)`. -/
def quotient (a c : ℤ) : ℤ := ⌊fl ((a : ℚ) / c)⌋

/-- `a % c`. -/
def modulo (a c : ℤ) : ℤ := ⌊luaMod a c⌋

def ui32 (value : ℤ) : ℤ := modulo (tobit value) 4294967296

/-- The products, sums and remainders of `mul32`, in the order in which it takes them. -/
def mul32Values (a c : ℤ) : List ℤ :=
  let al := modulo a 65536
  let cl := modulo c 65536
  let ah := quotient a 65536
  let ch := quotient c 65536
  let cross := plus (times ah cl) (times al ch)
  let high := times (modulo cross 65536) 65536
  [al, cl, ah, ch, times al cl, times ah cl, times al ch, cross, modulo cross 65536, high, plus (times al cl) high]

def mul32 (a c : ℤ) : ℤ :=
  let al := modulo a 65536
  let cl := modulo c 65536
  let ah := quotient a 65536
  let ch := quotient c 65536
  tobit (plus (times al cl) (times (modulo (plus (times ah cl) (times al ch)) 65536) 65536))

/-! What stands in for `tobit`, `rol` and `ror` where the bit operations lack them. -/

def tobitOther (value : ℤ) : ℤ := band value (-1)

def rolOther (value count : ℤ) : ℤ :=
  let places := modulo count 32
  bor (lshift value places) (rshift value (modulo (minus 32 places) 32))

def rorOther (value count : ℤ) : ℤ :=
  let places := modulo count 32
  bor (rshift value places) (lshift value (modulo (minus 32 places) 32))

namespace i32

def wrap (a : ℤ) : ℤ := tobit a
def add (a c : ℤ) : ℤ := tobit (plus a c)
def sub (a c : ℤ) : ℤ := tobit (minus a c)
def mul (a c : ℤ) : ℤ := mul32 (ui32 a) (ui32 c)
def andbits (a c : ℤ) : ℤ := band a c
def orbits (a c : ℤ) : ℤ := bor a c
def xorbits (a c : ℤ) : ℤ := bxor a c
def notbits (a : ℤ) : ℤ := bnot a
def shiftleft (a c : ℤ) : ℤ := lshift a (band c 31)
def shiftrightarithmetic (a c : ℤ) : ℤ := arshift a (band c 31)
def rotateleft (a c : ℤ) : ℤ := rol a (band c 31)
def rotateright (a c : ℤ) : ℤ := ror a (band c 31)
def lessthan (a c : ℤ) : Bool := tobit a < tobit c
def lessorequal (a c : ℤ) : Bool := tobit a ≤ tobit c
def fromu32 (a : ℤ) : ℤ := tobit a
def tou32 (a : ℤ) : ℤ := ui32 a

end i32

namespace u32

def wrap (a : ℤ) : ℤ := ui32 a
def add (a c : ℤ) : ℤ := ui32 (plus a c)
def sub (a c : ℤ) : ℤ := ui32 (minus a c)
def mul (a c : ℤ) : ℤ := ui32 (mul32 (ui32 a) (ui32 c))

def div (a c : ℤ) : ℤ :=
  let divisor := ui32 c
  if divisor = 0 then 0 else quotient (ui32 a) divisor

def mod (a c : ℤ) : ℤ :=
  let divisor := ui32 c
  if divisor = 0 then 0 else modulo (ui32 a) divisor

def andbits (a c : ℤ) : ℤ := ui32 (band a c)
def orbits (a c : ℤ) : ℤ := ui32 (bor a c)
def xorbits (a c : ℤ) : ℤ := ui32 (bxor a c)
def notbits (a : ℤ) : ℤ := ui32 (bnot a)
def shiftleft (a c : ℤ) : ℤ := ui32 (lshift a (band c 31))
def shiftrightlogical (a c : ℤ) : ℤ := ui32 (rshift a (band c 31))
def rotateleft (a c : ℤ) : ℤ := ui32 (rol a (band c 31))
def rotateright (a c : ℤ) : ℤ := ui32 (ror a (band c 31))
def lessthan (a c : ℤ) : Bool := ui32 a < ui32 c
def lessorequal (a c : ℤ) : Bool := ui32 a ≤ ui32 c
def fromi32 (a : ℤ) : ℤ := ui32 a
def toi32 (a : ℤ) : ℤ := tobit a

/-- A value of a counting loop, with the count. -/
abbrev Counting := ℤ × ℕ

def popcountStep (s : Counting) : Option (Counting ⊕ ℕ) :=
  if s.1 ≠ 0 then some (.inl (ui32 (band s.1 (minus s.1 1)), s.2 + 1)) else some (.inr s.2)

def trailingStep (s : Counting) : Option (Counting ⊕ ℕ) :=
  if band s.1 1 = 0 then some (.inl (rshift s.1 1, s.2 + 1)) else some (.inr s.2)

def leadingStep (remaining : ℤ) (s : Counting) : Option (Counting ⊕ ℕ) :=
  if band remaining s.1 = 0 then some (.inl (rshift s.1 1, s.2 + 1)) else some (.inr s.2)

/-! `turns` bounds the turns of a loop. -/

def popcount (turns : ℕ) (a : ℤ) : Option ℕ := Loop.loop popcountStep turns (ui32 a, 0)

def trailingzeros (turns : ℕ) (a : ℤ) : Option ℕ :=
  let remaining := ui32 a
  if remaining = 0 then some 32 else Loop.loop trailingStep turns (remaining, 0)

def leadingzeros (turns : ℕ) (a : ℤ) : Option ℕ :=
  let remaining := ui32 a
  if remaining = 0 then some 32 else Loop.loop (leadingStep remaining) turns (2147483648, 0)

end u32

end Nupp.math

/-! The 32-bit families compute modulo `2 ^ 32`, and their counting loops count bits. -/

namespace Nupp.math

open Binary64 LuaBit

/-! ### Rounded arithmetic that rounds nothing -/

theorem plus_eq {a c : ℤ} (h : (a + c).natAbs < 2 ^ 53) : plus a c = a + c := by
  rw [plus, fl_intCast h, Int.floor_intCast]

theorem minus_eq {a c : ℤ} (h : (a - c).natAbs < 2 ^ 53) : minus a c = a - c := by
  rw [minus, fl_intCast h, Int.floor_intCast]

theorem times_eq {a c : ℤ} (h : (a * c).natAbs < 2 ^ 53) : times a c = a * c := by
  rw [times, fl_intCast h, Int.floor_intCast]

theorem quotient_eq {a c : ℤ} (h : a.natAbs < 2 ^ 53) (hc : 0 < c) : quotient a c = a / c :=
  floor_fl_div_of_pos h hc

theorem modulo_eq {a c : ℤ} (hc : 0 < c) (h : a.natAbs + c.natAbs < 2 ^ 53) : modulo a c = a % c := by
  have hmul : a.fdiv c * c = a - a % c := by
    rw [Int.fdiv_eq_ediv_of_nonneg a hc.le]
    have hdiv := Int.ediv_mul_add_emod a c
    omega
  have hlt := Int.emod_lt_of_pos a hc
  have hnonneg := Int.emod_nonneg a hc.ne'
  have hexact : luaMod a c = a.fmod c := by
    rw [luaMod_eq_fmod_iff (by omega) (by omega) hc.ne', hmul]
    exact fl_intCast (by omega)
  rw [modulo, hexact, Int.floor_intCast, Int.fmod_eq_emod_of_nonneg a hc.le]

/-! ### Representatives -/

/-- The signed number of the residue. -/
def IsSigned (r x : ℤ) : Prop := -2 ^ 31 ≤ r ∧ r < 2 ^ 31 ∧ r ≡ x [ZMOD 2 ^ 32]

/-- The unsigned number of the residue. -/
def IsUnsigned (r x : ℤ) : Prop := 0 ≤ r ∧ r < 2 ^ 32 ∧ r ≡ x [ZMOD 2 ^ 32]

/-- An operand reduced modulo `2 ^ 32`. -/
def reduced (x : ℤ) : ℕ := (x % 2 ^ 32).toNat

theorem IsSigned.congr {r x y : ℤ} (h : IsSigned r x) (hxy : x ≡ y [ZMOD 2 ^ 32]) : IsSigned r y :=
  ⟨h.1, h.2.1, h.2.2.trans hxy⟩

theorem IsUnsigned.congr {r x y : ℤ} (h : IsUnsigned r x) (hxy : x ≡ y [ZMOD 2 ^ 32]) : IsUnsigned r y :=
  ⟨h.1, h.2.1, h.2.2.trans hxy⟩

theorem toNat_word_eq (x : ℤ) : (word x).toNat = reduced x := BitVec.toNat_ofInt x

theorem reduced_lt (x : ℤ) : reduced x < 2 ^ 32 := by
  rw [← toNat_word_eq]
  exact (word x).isLt

theorem reduced_modEq (x : ℤ) : (reduced x : ℤ) ≡ x [ZMOD 2 ^ 32] := by
  rw [reduced, Int.toNat_of_nonneg (Int.emod_nonneg x (by decide))]
  exact Int.mod_modEq x _

theorem natCast_unsigned {n : ℕ} (h : n < 2 ^ 32) : IsUnsigned n n :=
  ⟨Int.natCast_nonneg n, by exact_mod_cast h, Int.ModEq.refl _⟩

theorem toInt_signed (w : Word) : IsSigned w.toInt w.toNat := by
  have hlt := w.isLt
  rw [BitVec.toInt_eq_toNat_cond]
  refine ⟨?_, ?_, ?_⟩
  · split_ifs <;> omega
  · split_ifs <;> omega
  · rw [Int.ModEq]
    split_ifs <;> omega

theorem tobit_signed (x : ℤ) : IsSigned (tobit x) x := by
  have h := toInt_signed (word x)
  rw [toNat_word_eq] at h
  exact h.congr (reduced_modEq x)

theorem tobit_eq (x : ℤ) : tobit x = x.bmod (2 ^ 32) := BitVec.toInt_ofInt x

theorem ui32_toInt (w : Word) : ui32 w.toInt = w.toNat := by
  obtain ⟨hlow, hhigh, hmod⟩ := toInt_signed w
  have hlt := w.isLt
  rw [ui32, tobit, word_toInt, modulo_eq (by decide) (by omega)]
  rw [Int.ModEq] at hmod
  omega

theorem ui32_eq (x : ℤ) : ui32 x = reduced x := by
  have h := ui32_toInt (word x)
  rw [toNat_word_eq] at h
  rw [← h, ui32, ui32, tobit, tobit, word_toInt]

theorem toNat_unsigned (w : Word) : IsUnsigned w.toNat w.toNat := natCast_unsigned w.isLt

theorem ui32_unsigned (x : ℤ) : IsUnsigned (ui32 x) x := by
  have h := toNat_unsigned (word x)
  rw [toNat_word_eq] at h
  rw [ui32_eq]
  exact h.congr (reduced_modEq x)

/-! ### Words -/

theorem count_eq (c : ℤ) : band c 31 = c % 32 := by
  have hword : (word c &&& word 31).toNat = reduced c % 32 := by
    rw [BitVec.toNat_and, toNat_word_eq]
    exact Nat.and_two_pow_sub_one_eq_mod (reduced c) 5
  have hlt : (word c &&& word 31).toNat < 2 ^ 31 := by
    rw [hword]
    omega
  rw [band, toInt_of_lt hlt, hword, reduced]
  omega

/-- The places of a shift. -/
def places (c : ℤ) : ℕ := (c % 32).toNat

theorem places_lt (c : ℤ) : places c < 32 := by
  rw [places]
  omega

theorem shift_places (c : ℤ) : (band c 31 % 32).toNat = places c := by
  rw [count_eq, Int.emod_emod_of_dvd c (Int.dvd_refl 32), places]

theorem toNat_shiftLeft_word (a : ℤ) (k : ℕ) : ((word a <<< k).toNat : ℤ) ≡ a * 2 ^ k [ZMOD 2 ^ 32] := by
  rw [BitVec.toNat_shiftLeft, toNat_word_eq, Nat.shiftLeft_eq, Int.natCast_mod, Nat.cast_mul, Nat.cast_pow, Nat.cast_pow]
  exact (Int.mod_modEq _ _).trans ((reduced_modEq a).mul_right _)

theorem toNat_shiftRight_word (a : ℤ) (k : ℕ) : (word a >>> k).toNat = reduced a / 2 ^ k := by
  rw [BitVec.toNat_ushiftRight, toNat_word_eq, Nat.shiftRight_eq_div_pow]

/-- The bits that leave a word on the left come in on the right. -/
theorem toNat_rotateLeft_word (a : ℤ) {k : ℕ} (hk : k < 32) :
    ((word a).rotateLeft k).toNat = reduced a * 2 ^ k % 2 ^ 32 + reduced a / 2 ^ (32 - k) := by
  have hpow : 2 ^ 32 = 2 ^ k * 2 ^ (32 - k) := by
    rw [← pow_add, show k + (32 - k) = 32 by omega]
  have hlow : reduced a / 2 ^ (32 - k) < 2 ^ k := by
    have hlt := reduced_lt a
    rw [hpow, Nat.mul_comm] at hlt
    exact Nat.div_lt_of_lt_mul hlt
  have hhigh : reduced a * 2 ^ k % 2 ^ 32 = 2 ^ k * (reduced a % 2 ^ (32 - k)) := by
    rw [hpow, Nat.mul_comm, Nat.mul_mod_mul_left]
  rw [BitVec.toNat_rotateLeft, toNat_word_eq, Nat.mod_eq_of_lt hk, Nat.shiftLeft_eq, Nat.shiftRight_eq_div_pow, hhigh,
    Nat.two_pow_add_eq_or_of_lt hlow]

theorem toNat_rotateRight_word (a : ℤ) {k : ℕ} (hk : k < 32) :
    ((word a).rotateRight k).toNat = reduced a / 2 ^ k + reduced a * 2 ^ (32 - k) % 2 ^ 32 := by
  have hpow : 2 ^ 32 = 2 ^ (32 - k) * 2 ^ k := by
    rw [← pow_add, show 32 - k + k = 32 by omega]
  have hlow : reduced a / 2 ^ k < 2 ^ (32 - k) := by
    have hlt := reduced_lt a
    rw [hpow, Nat.mul_comm] at hlt
    exact Nat.div_lt_of_lt_mul hlt
  have hhigh : reduced a * 2 ^ (32 - k) % 2 ^ 32 = 2 ^ (32 - k) * (reduced a % 2 ^ k) := by
    rw [hpow, Nat.mul_comm, Nat.mul_mod_mul_left]
  rw [BitVec.toNat_rotateRight, toNat_word_eq, Nat.mod_eq_of_lt hk, Nat.shiftLeft_eq, Nat.shiftRight_eq_div_pow, hhigh,
    Nat.or_comm, ← Nat.two_pow_add_eq_or_of_lt hlow, Nat.add_comm]

theorem toInt_arshift (a c : ℤ) : arshift a (band c 31) = a.bmod (2 ^ 32) / 2 ^ places c := by
  rw [arshift, shift_places, BitVec.toInt_sshiftRight, Int.shiftRight_eq_div_pow, ← tobit_eq, tobit, Nat.cast_pow]
  rfl

/-! ### The product -/

theorem mul32_eq (a c : ℤ) : (mul32Values a c).getLast?.map tobit = some (mul32 a c) := rfl

/-- Nothing that `mul32` computes from two unsigned words leaves the integers that a double holds, and its total is
the product. -/
theorem mul32_spec {a c : ℤ} (ha : 0 ≤ a) (ha' : a < 2 ^ 32) (hc : 0 ≤ c) (hc' : c < 2 ^ 32) :
    (∀ v ∈ mul32Values a c, v.natAbs < 2 ^ 53) ∧ IsSigned (mul32 a c) (a * c) := by
  have hal : modulo a 65536 = a % 65536 := modulo_eq (by decide) (by omega)
  have hcl : modulo c 65536 = c % 65536 := modulo_eq (by decide) (by omega)
  have hah : quotient a 65536 = a / 65536 := quotient_eq (by omega) (by decide)
  have hch : quotient c 65536 = c / 65536 := quotient_eq (by omega) (by decide)
  obtain ⟨al, ah, cl, ch, ha0, ha1, hc0, hc1, hal0, hcl0, hah0, hch0, hal1, hcl1, hah1, hch1⟩ :
      ∃ al ah cl ch : ℤ, a % 65536 = al ∧ a / 65536 = ah ∧ c % 65536 = cl ∧ c / 65536 = ch ∧
        0 ≤ al ∧ 0 ≤ cl ∧ 0 ≤ ah ∧ 0 ≤ ch ∧ al ≤ 65535 ∧ cl ≤ 65535 ∧ ah ≤ 65535 ∧ ch ≤ 65535 :=
    ⟨a % 65536, a / 65536, c % 65536, c / 65536, rfl, rfl, rfl, rfl, by omega, by omega, by omega, by omega, by omega,
      by omega, by omega, by omega⟩
  have hbound {x y : ℤ} (hx : 0 ≤ x) (hy : 0 ≤ y) (hx' : x ≤ 65535) (hy' : y ≤ 65535) :
      0 ≤ x * y ∧ x * y ≤ 65535 * 65535 :=
    ⟨Int.mul_nonneg hx hy, Int.mul_le_mul hx' hy' hy (by decide)⟩
  have hlow := hbound hal0 hcl0 hal1 hcl1
  have hleft := hbound hah0 hcl0 hah1 hcl1
  have hright := hbound hal0 hch0 hal1 hch1
  have hlow' : times al cl = al * cl := times_eq (by omega)
  have hleft' : times ah cl = ah * cl := times_eq (by omega)
  have hright' : times al ch = al * ch := times_eq (by omega)
  have hcross : plus (ah * cl) (al * ch) = ah * cl + al * ch := plus_eq (by omega)
  have hmod : modulo (ah * cl + al * ch) 65536 = (ah * cl + al * ch) % 65536 := modulo_eq (by decide) (by omega)
  have hhigh : times ((ah * cl + al * ch) % 65536) 65536 = (ah * cl + al * ch) % 65536 * 65536 := times_eq (by omega)
  have htotal : plus (al * cl) ((ah * cl + al * ch) % 65536 * 65536) =
      al * cl + (ah * cl + al * ch) % 65536 * 65536 := plus_eq (by omega)
  constructor
  · intro v hv
    simp only [mul32Values, hal, hcl, hah, hch, ha0, ha1, hc0, hc1, hlow', hleft', hright', hcross, hmod, hhigh, htotal,
      List.mem_cons, List.not_mem_nil, or_false] at hv
    omega
  · have hmul : mul32 a c = tobit (al * cl + (ah * cl + al * ch) % 65536 * 65536) := by
      simp only [mul32, hal, hcl, hah, hch, ha0, ha1, hc0, hc1, hlow', hleft', hright', hcross, hmod, hhigh, htotal]
    rw [hmul]
    refine (tobit_signed _).congr ?_
    have hproduct : a * c = al * cl + (ah * cl + al * ch) * 65536 + ah * ch * 2 ^ 32 := by
      have ha2 : a = ah * 65536 + al := by omega
      have hc2 : c = ch * 65536 + cl := by omega
      rw [ha2, hc2]
      ring
    rw [hproduct, Int.ModEq]
    omega

/-! ### The families -/

/-- What the signed family answers. -/
structure Signed (a c : ℤ) : Prop where
  wrap : IsSigned (i32.wrap a) a
  add : IsSigned (i32.add a c) (a + c)
  sub : IsSigned (i32.sub a c) (a - c)
  mul : IsSigned (i32.mul a c) (a * c)
  andbits : IsSigned (i32.andbits a c) (reduced a &&& reduced c : ℕ)
  orbits : IsSigned (i32.orbits a c) (reduced a ||| reduced c : ℕ)
  xorbits : IsSigned (i32.xorbits a c) (reduced a ^^^ reduced c : ℕ)
  notbits : IsSigned (i32.notbits a) (-1 - a)
  shiftleft : IsSigned (i32.shiftleft a c) (a * 2 ^ places c)
  shiftrightarithmetic : IsSigned (i32.shiftrightarithmetic a c) (a.bmod (2 ^ 32) / 2 ^ places c)
  rotateleft : IsSigned (i32.rotateleft a c)
    (reduced a * 2 ^ places c + reduced a / 2 ^ (32 - places c) : ℕ)
  rotateright : IsSigned (i32.rotateright a c)
    (reduced a / 2 ^ places c + reduced a * 2 ^ (32 - places c) : ℕ)
  lessthan : i32.lessthan a c = true ↔ a.bmod (2 ^ 32) < c.bmod (2 ^ 32)
  lessorequal : i32.lessorequal a c = true ↔ a.bmod (2 ^ 32) ≤ c.bmod (2 ^ 32)
  fromu32 : IsSigned (i32.fromu32 a) a
  tou32 : IsUnsigned (i32.tou32 a) a

theorem sum_exact {a c : ℤ} (ha : |a| < 2 ^ 50) (hc : |c| < 2 ^ 50) : plus a c = a + c ∧ minus a c = a - c := by
  rw [abs_lt] at ha hc
  exact ⟨plus_eq (by omega), minus_eq (by omega)⟩

theorem word_mul_signed (a c : ℤ) : IsSigned (mul32 (ui32 a) (ui32 c)) (a * c) := by
  obtain ⟨ha, ha', hamod⟩ := ui32_unsigned a
  obtain ⟨hc, hc', hcmod⟩ := ui32_unsigned c
  exact (mul32_spec ha ha' hc hc').2.congr (hamod.mul hcmod)

/-! Each operation on words, and the residue that its answer is. -/

section
variable {w : Word} {x : ℤ}

theorem word_signed (h : (w.toNat : ℤ) ≡ x [ZMOD 2 ^ 32]) : IsSigned w.toInt x := (toInt_signed w).congr h

theorem word_unsigned (h : (w.toNat : ℤ) ≡ x [ZMOD 2 ^ 32]) : IsUnsigned (ui32 w.toInt) x := by
  rw [ui32_toInt]
  exact (toNat_unsigned w).congr h

end

theorem word_and (a c : ℤ) : ((word a &&& word c).toNat : ℤ) ≡ (reduced a &&& reduced c : ℕ) [ZMOD 2 ^ 32] := by
  rw [BitVec.toNat_and, toNat_word_eq, toNat_word_eq]

theorem word_or (a c : ℤ) : ((word a ||| word c).toNat : ℤ) ≡ (reduced a ||| reduced c : ℕ) [ZMOD 2 ^ 32] := by
  rw [BitVec.toNat_or, toNat_word_eq, toNat_word_eq]

theorem word_xor (a c : ℤ) : ((word a ^^^ word c).toNat : ℤ) ≡ (reduced a ^^^ reduced c : ℕ) [ZMOD 2 ^ 32] := by
  rw [BitVec.toNat_xor, toNat_word_eq, toNat_word_eq]

theorem word_not (a : ℤ) : ((~~~word a).toNat : ℤ) ≡ -1 - a [ZMOD 2 ^ 32] := by
  have hlt := reduced_lt a
  have hmod := reduced_modEq a
  rw [BitVec.toNat_not, toNat_word_eq]
  rw [Int.ModEq] at hmod ⊢
  omega

theorem word_rotateLeft (a c : ℤ) : (((word a).rotateLeft (places c)).toNat : ℤ) ≡
    (reduced a * 2 ^ places c + reduced a / 2 ^ (32 - places c) : ℕ) [ZMOD 2 ^ 32] := by
  rw [toNat_rotateLeft_word a (places_lt c), Int.ModEq]
  omega

theorem word_rotateRight (a c : ℤ) : (((word a).rotateRight (places c)).toNat : ℤ) ≡
    (reduced a / 2 ^ places c + reduced a * 2 ^ (32 - places c) : ℕ) [ZMOD 2 ^ 32] := by
  rw [toNat_rotateRight_word a (places_lt c), Int.ModEq]
  omega

theorem signed_exact {a c : ℤ} (ha : |a| < 2 ^ 50) (hc : |c| < 2 ^ 50) : Signed a c := by
  obtain ⟨hplus, hminus⟩ := sum_exact ha hc
  constructor
  · exact tobit_signed a
  · rw [i32.add, hplus]
    exact tobit_signed _
  · rw [i32.sub, hminus]
    exact tobit_signed _
  · exact word_mul_signed a c
  · exact word_signed (word_and a c)
  · exact word_signed (word_or a c)
  · exact word_signed (word_xor a c)
  · exact word_signed (word_not a)
  · rw [i32.shiftleft, lshift, shift_places]
    exact word_signed (toNat_shiftLeft_word a _)
  · have hrange := toInt_signed ((word a).sshiftRight (places c))
    rw [i32.shiftrightarithmetic, ← toInt_arshift, arshift, shift_places]
    exact ⟨hrange.1, hrange.2.1, Int.ModEq.refl _⟩
  · rw [i32.rotateleft, rol, shift_places]
    exact word_signed (word_rotateLeft a c)
  · rw [i32.rotateright, ror, shift_places]
    exact word_signed (word_rotateRight a c)
  · rw [i32.lessthan, decide_eq_true_eq, tobit_eq, tobit_eq]
  · rw [i32.lessorequal, decide_eq_true_eq, tobit_eq, tobit_eq]
  · exact tobit_signed a
  · exact ui32_unsigned a

/-- What the unsigned family answers, its loops within `33` turns. -/
structure Unsigned (a c : ℤ) : Prop where
  wrap : IsUnsigned (u32.wrap a) a
  add : IsUnsigned (u32.add a c) (a + c)
  sub : IsUnsigned (u32.sub a c) (a - c)
  mul : IsUnsigned (u32.mul a c) (a * c)
  divmod : reduced c ≠ 0 → (reduced a : ℤ) = u32.div a c * reduced c + u32.mod a c ∧
    0 ≤ u32.mod a c ∧ u32.mod a c < reduced c
  divmod_zero : reduced c = 0 → u32.div a c = 0 ∧ u32.mod a c = 0
  div : IsUnsigned (u32.div a c) (reduced a / reduced c : ℕ)
  mod : IsUnsigned (u32.mod a c) (if reduced c = 0 then 0 else reduced a % reduced c : ℕ)
  andbits : IsUnsigned (u32.andbits a c) (reduced a &&& reduced c : ℕ)
  orbits : IsUnsigned (u32.orbits a c) (reduced a ||| reduced c : ℕ)
  xorbits : IsUnsigned (u32.xorbits a c) (reduced a ^^^ reduced c : ℕ)
  notbits : IsUnsigned (u32.notbits a) (-1 - a)
  shiftleft : IsUnsigned (u32.shiftleft a c) (a * 2 ^ places c)
  shiftrightlogical : IsUnsigned (u32.shiftrightlogical a c) (reduced a / 2 ^ places c : ℕ)
  rotateleft : IsUnsigned (u32.rotateleft a c)
    (reduced a * 2 ^ places c + reduced a / 2 ^ (32 - places c) : ℕ)
  rotateright : IsUnsigned (u32.rotateright a c)
    (reduced a / 2 ^ places c + reduced a * 2 ^ (32 - places c) : ℕ)
  lessthan : u32.lessthan a c = true ↔ reduced a < reduced c
  lessorequal : u32.lessorequal a c = true ↔ reduced a ≤ reduced c
  fromi32 : IsUnsigned (u32.fromi32 a) a
  toi32 : IsSigned (u32.toi32 a) a

theorem divmod_eq (a c : ℤ) : u32.div a c = (reduced a / reduced c : ℕ) ∧
    u32.mod a c = (if reduced c = 0 then 0 else reduced a % reduced c : ℕ) := by
  have ha := reduced_lt a
  have hc := reduced_lt c
  rw [u32.div, u32.mod, ui32_eq, ui32_eq]
  by_cases hzero : reduced c = 0
  · simp [hzero]
  · have hne : (reduced c : ℤ) ≠ 0 := by omega
    rw [if_neg hne, if_neg hne, if_neg hzero, quotient_eq (by omega) (by omega), modulo_eq (by omega) (by omega)]
    exact ⟨rfl, rfl⟩

theorem unsigned_exact {a c : ℤ} (ha : |a| < 2 ^ 50) (hc : |c| < 2 ^ 50) : Unsigned a c := by
  obtain ⟨hplus, hminus⟩ := sum_exact ha hc
  obtain ⟨hdiv, hmod⟩ := divmod_eq a c
  have hlt := reduced_lt a
  have hlt' := reduced_lt c
  constructor
  · exact ui32_unsigned a
  · rw [u32.add, hplus]
    exact ui32_unsigned _
  · rw [u32.sub, hminus]
    exact ui32_unsigned _
  · exact (ui32_unsigned _).congr (word_mul_signed a c).2.2
  · intro hne
    rw [hdiv, hmod, if_neg hne]
    have hpos := Nat.mod_lt (reduced a) (Nat.pos_of_ne_zero hne)
    refine ⟨?_, by omega, by omega⟩
    rw [← Nat.cast_mul, ← Nat.cast_add, Nat.div_add_mod']
  · intro hzero
    rw [hdiv, hmod, hzero]
    exact ⟨by simp, by simp⟩
  · rw [hdiv]
    exact natCast_unsigned ((Nat.div_le_self _ _).trans_lt hlt)
  · rw [hmod]
    refine natCast_unsigned ?_
    split_ifs
    · decide
    · exact (Nat.mod_le _ _).trans_lt hlt
  · exact word_unsigned (word_and a c)
  · exact word_unsigned (word_or a c)
  · exact word_unsigned (word_xor a c)
  · exact word_unsigned (word_not a)
  · rw [u32.shiftleft, lshift, shift_places]
    exact word_unsigned (toNat_shiftLeft_word a _)
  · rw [u32.shiftrightlogical, rshift, shift_places]
    exact word_unsigned (by rw [toNat_shiftRight_word])
  · rw [u32.rotateleft, rol, shift_places]
    exact word_unsigned (word_rotateLeft a c)
  · rw [u32.rotateright, ror, shift_places]
    exact word_unsigned (word_rotateRight a c)
  · rw [u32.lessthan, decide_eq_true_eq, ui32_eq, ui32_eq, Int.ofNat_lt]
  · rw [u32.lessorequal, decide_eq_true_eq, ui32_eq, ui32_eq, Int.ofNat_le]
  · exact ui32_unsigned a
  · exact tobit_signed a

/-! ### Counting loops -/

/-- The one bits of a number below `2 ^ 32`. -/
def ones (u : ℕ) : ℕ := (List.range 32).countP u.testBit

theorem band_natCast {x y : ℕ} (hx : x < 2 ^ 32) (hy : y < 2 ^ 32) : ui32 (band x y) = (x &&& y : ℕ) := by
  rw [band, ui32_toInt, BitVec.toNat_and, toNat_word hx, toNat_word hy]

theorem band_eq_zero {x y : ℕ} (hx : x < 2 ^ 32) (hy : y < 2 ^ 32) : band x y = 0 ↔ x &&& y = 0 := by
  rw [band_eq_zero_iff, ← BitVec.toNat_inj, BitVec.toNat_and, toNat_word hx, toNat_word hy]
  rfl

theorem rshift_one {x : ℕ} (hx : x < 2 ^ 32) : rshift x 1 = (x / 2 : ℕ) := by
  have hword : (word x >>> 1).toNat = x / 2 := by
    rw [BitVec.toNat_ushiftRight, toNat_word hx, Nat.shiftRight_eq_div_pow, pow_one]
  rw [rshift, show ((1 : ℤ) % 32).toNat = 1 by decide, toInt_of_lt (by omega), hword]

theorem popcount_spec (a : ℤ) : u32.popcount 33 a = some (ones (reduced a)) := by
  have hadvances : Loop.Advances u32.popcountStep
      (fun s => ∃ v : ℕ, s.1 = v ∧ v < 2 ^ 32 ∧ s.2 + ones v = ones (reduced a))
      (fun s => ones s.1.toNat) (fun n => n = ones (reduced a)) := by
    rintro ⟨value, count⟩ ⟨v, rfl, hv, hcount⟩
    rw [u32.popcountStep]
    by_cases hzero : v = 0
    · subst hzero
      refine .inr ⟨count, by simp, ?_⟩
      rw [← hcount, ones]
      simp
    · have hpred : minus v 1 = (v - 1 : ℕ) := by
        rw [minus_eq (by omega)]
        omega
      have hone : ones (v &&& (v - 1)) + 1 = ones v := countP_and_pred (Nat.pos_of_ne_zero hzero) hv
      dsimp only
      rw [if_pos (by omega), hpred, band_natCast hv (by omega)]
      refine .inl ⟨_, rfl, ⟨_, rfl, Nat.and_lt_two_pow v (by omega), by omega⟩, ?_⟩
      show ones (v &&& (v - 1)) < ones v
      omega
  have hle : ones (reduced a) ≤ 32 := by
    have h := List.countP_le_length (p := (reduced a).testBit) (l := List.range 32)
    rwa [List.length_range] at h
  obtain ⟨n, hn, rfl⟩ := Loop.loop_total hadvances (n := 33) (s := (ui32 a, 0))
    ⟨reduced a, ui32_eq a, reduced_lt a, Nat.zero_add _⟩ (by
      show ones (ui32 a).toNat < 33
      rw [ui32_eq, Int.toNat_natCast]
      omega)
  exact hn

def TrailingZeros (u n : ℕ) : Prop := (u = 0 ∧ n = 32) ∨ (u ≠ 0 ∧ 2 ^ n ∣ u ∧ ¬2 ^ (n + 1) ∣ u)

def LeadingZeros (u n : ℕ) : Prop := (u = 0 ∧ n = 32) ∨ (u ≠ 0 ∧ n ≤ 31 ∧ 2 ^ (31 - n) ≤ u ∧ u < 2 ^ (32 - n))

theorem trailingzeros_spec (a : ℤ) : ∃ n, u32.trailingzeros 33 a = some n ∧ TrailingZeros (reduced a) n := by
  rw [u32.trailingzeros, ui32_eq]
  by_cases hzero : reduced a = 0
  · rw [hzero]
    exact ⟨32, rfl, .inl ⟨rfl, rfl⟩⟩
  rw [if_neg (by omega)]
  have hadvances : Loop.Advances u32.trailingStep
      (fun s => ∃ v : ℕ, s.1 = v ∧ 0 < v ∧ v < 2 ^ 32 ∧ reduced a = v * 2 ^ s.2)
      (fun s => Nat.log 2 s.1.toNat) (fun n => 2 ^ n ∣ reduced a ∧ ¬2 ^ (n + 1) ∣ reduced a) := by
    rintro ⟨value, count⟩ ⟨v, rfl, hpos, hv, hcount⟩
    rw [u32.trailingStep]
    have hbit : band v 1 = 0 ↔ v % 2 = 0 := by
      rw [← Nat.and_one_is_mod]
      exact band_eq_zero hv (by decide)
    by_cases heven : v % 2 = 0
    · dsimp only at hcount ⊢
      rw [if_pos (hbit.mpr heven), rshift_one hv]
      refine .inl ⟨_, rfl, ⟨v / 2, rfl, by omega, by omega, ?_⟩, ?_⟩
      · rw [hcount, pow_succ, Nat.mul_comm (2 ^ count) 2, ← Nat.mul_assoc, Nat.div_mul_cancel (Nat.dvd_of_mod_eq_zero heven)]
      · show Nat.log 2 (v / 2) < Nat.log 2 v
        rw [Nat.log_div_base]
        have hlog : 0 < Nat.log 2 v := Nat.log_pos (by decide) (by omega)
        omega
    · dsimp only at hcount ⊢
      rw [if_neg fun h => heven (hbit.mp h)]
      refine .inr ⟨count, rfl, ⟨v, by rw [hcount, Nat.mul_comm]⟩, fun hdvd => ?_⟩
      rw [hcount, pow_succ, Nat.mul_comm v] at hdvd
      exact heven (Nat.mod_eq_zero_of_dvd (Nat.dvd_of_mul_dvd_mul_left (Nat.two_pow_pos count) hdvd))
  have hlog : Nat.log 2 (reduced a : ℤ).toNat < 33 := by
    rw [Int.toNat_natCast]
    exact Nat.log_lt_of_lt_pow hzero ((reduced_lt a).trans (by decide))
  obtain ⟨n, hn, hcount⟩ := Loop.loop_total hadvances (s := (reduced a, 0))
    ⟨reduced a, rfl, Nat.pos_of_ne_zero hzero, reduced_lt a, by rw [pow_zero, Nat.mul_one]⟩ hlog
  exact ⟨n, hn, .inr ⟨hzero, hcount⟩⟩

theorem leadingzeros_spec (a : ℤ) : ∃ n, u32.leadingzeros 33 a = some n ∧ LeadingZeros (reduced a) n := by
  rw [u32.leadingzeros, ui32_eq]
  by_cases hzero : reduced a = 0
  · rw [hzero]
    exact ⟨32, rfl, .inl ⟨rfl, rfl⟩⟩
  rw [if_neg (by omega)]
  have hadvances : Loop.Advances (u32.leadingStep (reduced a))
      (fun s => s.2 ≤ 31 ∧ s.1 = (2 ^ (31 - s.2) : ℕ) ∧ reduced a < 2 ^ (32 - s.2))
      (fun s => 31 - s.2) (fun n => n ≤ 31 ∧ 2 ^ (31 - n) ≤ reduced a ∧ reduced a < 2 ^ (32 - n)) := by
    rintro ⟨probe, count⟩ ⟨hcount, hprobe, hbelow⟩
    dsimp only at hcount hprobe hbelow
    subst hprobe
    have hprobe : 2 ^ (31 - count) < 2 ^ 32 := Nat.pow_lt_pow_right (by decide) (by omega)
    have hbit : band (reduced a) (2 ^ (31 - count) : ℕ) = 0 ↔ (reduced a).testBit (31 - count) = false := by
      rw [band_eq_zero (reduced_lt a) hprobe, Nat.and_two_pow]
      simp
    have hsplit : 32 - count = 31 - count + 1 := by omega
    rw [hsplit] at hbelow
    rw [u32.leadingStep]
    by_cases hclear : (reduced a).testBit (31 - count) = false
    · have hless : reduced a < 2 ^ (31 - count) := by
        by_contra hge
        have hset := Nat.testBit_of_two_pow_le_and_two_pow_add_one_gt (not_lt.mp hge) hbelow
        rw [hclear] at hset
        cases hset
      have hmore : count < 31 := by
        by_contra hge
        rw [show 31 - count = 0 by omega] at hless
        omega
      dsimp only
      rw [if_pos (hbit.mpr hclear), rshift_one hprobe]
      refine .inl ⟨_, rfl, ⟨by omega, ?_, ?_⟩, by omega⟩
      · rw [show 31 - count = 31 - (count + 1) + 1 by omega, pow_succ, Nat.mul_div_cancel _ (by decide)]
      · rwa [show 32 - (count + 1) = 31 - count by omega]
    · dsimp only
      rw [if_neg fun h => hclear (hbit.mp h)]
      rw [Bool.not_eq_false] at hclear
      exact .inr ⟨count, rfl, hcount, Nat.ge_two_pow_of_testBit hclear, hsplit ▸ hbelow⟩
  obtain ⟨n, hn, hcount⟩ := Loop.loop_total hadvances (n := 33) (s := (2147483648, 0))
    ⟨Nat.zero_le _, rfl, reduced_lt a⟩ (by decide)
  exact ⟨n, hn, .inr ⟨hzero, hcount⟩⟩

/-! ### The substitutes -/

theorem tobitOther_eq (value : ℤ) : tobitOther value = tobit value := by
  have hones : word (-1) = BitVec.allOnes 32 := rfl
  rw [tobitOther, band, tobit, hones, BitVec.and_allOnes]

theorem modulo_places {count : ℤ} (hcount : |count| < 2 ^ 50) : modulo count 32 = places count ∧
    modulo (minus 32 (modulo count 32)) 32 = ((32 - places count) % 32 : ℕ) := by
  rw [abs_lt] at hcount
  have hplaces := places_lt count
  have hmod : modulo count 32 = places count := by
    rw [modulo_eq (by decide) (by omega), places]
    omega
  refine ⟨hmod, ?_⟩
  rw [hmod, minus_eq (by omega), modulo_eq (by decide) (by omega)]
  omega

theorem rolOther_eq (value : ℤ) {count : ℤ} (hcount : |count| < 2 ^ 50) :
    rolOther value count = rol value count := by
  obtain ⟨hplaces, hrest⟩ := modulo_places hcount
  have hlt := places_lt count
  have hrest' : (32 - places count) % 32 < 32 := Nat.mod_lt _ (by decide)
  rw [rolOther, hrest, hplaces, bor, word_lshift value hlt, word_rshift value hrest', rol, ← places, BitVec.rotateLeft_def,
    Nat.mod_eq_of_lt hlt]
  congr 1
  by_cases hzero : places count = 0
  · rw [hzero]
    have hgone : word value >>> 32 = 0#32 := BitVec.ushiftRight_eq_zero (Nat.le_refl 32)
    show word value <<< 0 ||| word value >>> 0 = word value <<< 0 ||| word value >>> 32
    rw [hgone, BitVec.shiftLeft_zero, BitVec.ushiftRight_zero, BitVec.or_self, BitVec.or_zero]
  · rw [Nat.mod_eq_of_lt (by omega)]

theorem rorOther_eq (value : ℤ) {count : ℤ} (hcount : |count| < 2 ^ 50) :
    rorOther value count = ror value count := by
  obtain ⟨hplaces, hrest⟩ := modulo_places hcount
  have hlt := places_lt count
  have hrest' : (32 - places count) % 32 < 32 := Nat.mod_lt _ (by decide)
  rw [rorOther, hrest, hplaces, bor, word_rshift value hlt, word_lshift value hrest', ror, ← places, BitVec.rotateRight_def,
    Nat.mod_eq_of_lt hlt]
  congr 1
  by_cases hzero : places count = 0
  · rw [hzero]
    have hgone : word value <<< 32 = 0#32 := BitVec.shiftLeft_eq_zero (Nat.le_refl 32)
    show word value >>> 0 ||| word value <<< 0 = word value >>> 0 ||| word value <<< 32
    rw [hgone, BitVec.shiftLeft_zero, BitVec.ushiftRight_zero, BitVec.or_self, BitVec.or_zero]
  · rw [Nat.mod_eq_of_lt (by omega)]

/-- Both families are arithmetic modulo `2 ^ 32`, the counting loops end with the counts, and the product keeps to
the integers that a double holds. -/
theorem words_exact (a c : ℤ) (ha : |a| < 2 ^ 50) (hc : |c| < 2 ^ 50) : Signed a c ∧ Unsigned a c ∧
    (u32.popcount 33 a = some (ones (reduced a)) ∧
      (∃ n, u32.trailingzeros 33 a = some n ∧ TrailingZeros (reduced a) n) ∧
      ∃ n, u32.leadingzeros 33 a = some n ∧ LeadingZeros (reduced a) n) ∧
    ∀ v ∈ mul32Values (ui32 a) (ui32 c), v.natAbs < 2 ^ 53 := by
  obtain ⟨ha0, ha1, -⟩ := ui32_unsigned a
  obtain ⟨hc0, hc1, -⟩ := ui32_unsigned c
  exact ⟨signed_exact ha hc, unsigned_exact ha hc, ⟨popcount_spec a, trailingzeros_spec a, leadingzeros_spec a⟩,
    (mul32_spec ha0 ha1 hc0 hc1).1⟩

theorem words_exact_large : u32.popcount 33 (-5) = some (ones (reduced (-5))) ∧
    IsSigned (i32.mul (-5) (2 ^ 49)) (-5 * 2 ^ 49) :=
  have h := words_exact (-5) (2 ^ 49) (by decide) (by decide)
  ⟨h.2.2.1.1, h.1.mul⟩

end Nupp.math
