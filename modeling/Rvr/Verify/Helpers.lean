import Rvr.Emit.Helpers
import Rvr.Verify.BitmanipValues

/-!
# The arithmetic helpers compute the specified values

Every helper of the C header has a value on every argument, so that no call is undefined, and the
value is the one of the specification.  The early returns of the divisions leave out exactly the
operands that `/` and `%` are undefined for; the products fit in the wider type; the
bit-manipulation helpers are networks, and are compared with the specification on the words with a
single bit.
-/

namespace Rvr.CHelpers

open CLang Spec CInt CExpr Ops

/-- The environment of a call with arguments `a` and `b`. -/
def argsEnv (a b : CInt) : Env := (Env.set ⟨fun _ => none, fun _ => none⟩ "b" b).set "a" a

@[simp] theorem eval_varA (a b : CInt) : varA.eval (argsEnv a b) = some a :=
  eval_var (Env.vars_set_self _ _ _)

@[simp] theorem eval_varB (a b : CInt) : varB.eval (argsEnv a b) = some b :=
  eval_var ((Env.vars_set_of_ne _ (by decide) _).trans (Env.vars_set_self _ _ _))

theorem call_two {ret ta tb : CType} {body : List CLang.CStmt} (a : BitVec ta.width)
    (b : BitVec tb.width) :
    CDef.call ⟨ret, [(ta, "a"), (tb, "b")], body⟩ [.ofBits ta a, .ofBits tb b] =
      (CLang.CStmt.exec (argsEnv (.ofBits ta a) (.ofBits tb b)) body).map (convert · ret) := by
  simp only [CDef.call, Env.ofArgs, Option.map_some, Option.bind_some, convert_ofBits, argsEnv]

/-! ## Division -/

section Division

variable {ret t : CType} {onZero onOverflow result : CExpr} {a b : BitVec t.width}

/-- The first test of both kinds of division. -/
theorem eval_isZero (hint : t.common .i32 = t) (v : CInt) :
    (binary .eq varB (int 0)).eval (argsEnv v (.ofBits t b)) =
      some (.ofBool (b = 0)) := by
  have hbits : (ofInt .i32 (0 : ℕ)).bits t = 0 := by cases t <;> rfl
  rw [eval_binary (eval_varB _ _) (by rw [int, eval]), CBinary.apply_eq b hint, hbits]

/-- The value of a signed division is that of the branch its operands take. -/
theorem call_signedDivision {m : CInt} (hint : t.common .i32 = t) (hm : t.common m.ty = t)
    (hbits : m.bits t = BitVec.intMin t.width) :
    (signedDivision ret t (.lit m) onZero onOverflow result).call [.ofBits t a, .ofBits t b] =
      (if b = 0 then onZero.eval (argsEnv (.ofBits t a) (.ofBits t b))
        else if a = BitVec.intMin t.width ∧ b = -1#t.width then
          onOverflow.eval (argsEnv (.ofBits t a) (.ofBits t b))
        else result.eval (argsEnv (.ofBits t a) (.ofBits t b))).map (convert · ret) := by
  have hneg : (unary .neg (int 1)).eval (argsEnv (.ofBits t a) (.ofBits t b)) =
      some (.ofInt .i32 (-1)) := rfl
  have hone : (ofInt .i32 (-1)).bits t = -1#t.width := by cases t <;> rfl
  have hmin : (binary .eq varA (.lit m)).eval (argsEnv (.ofBits t a) (.ofBits t b)) =
      some (.ofBool (a = BitVec.intMin t.width)) := by
    rw [eval_binary (eval_varA _ _) (by rw [eval]), CBinary.apply_eq a hm, hbits]
  have hminus : (binary .eq varB (.unary .neg (int 1))).eval
      (argsEnv (.ofBits t a) (.ofBits t b)) = some (.ofBool (b = -1#t.width)) := by
    rw [eval_binary (eval_varB _ _) hneg, CBinary.apply_eq b hint, hone]
  rw [signedDivision, call_two, CStmt.exec_ifReturn (eval_isZero hint _),
    CStmt.exec_ifReturn (eval_land hmin hminus), CLang.CStmt.exec]
  simp only [decide_eq_true_eq, Bool.and_eq_true]

theorem call_unsignedDivision (hint : t.common .i32 = t) :
    (unsignedDivision ret t onZero result).call [.ofBits t a, .ofBits t b] =
      (if b = 0 then onZero.eval (argsEnv (.ofBits t a) (.ofBits t b))
        else result.eval (argsEnv (.ofBits t a) (.ofBits t b))).map (convert · ret) := by
  rw [unsignedDivision, call_two, CStmt.exec_ifReturn (eval_isZero hint _), CLang.CStmt.exec]
  simp only [decide_eq_true_eq]

/-- How a helper returns a value of its operand type: an expression that the casts of the helper and
the return make into the bits `conv` of the result. -/
def Returns (ret t : CType) (cast : CExpr → CExpr) (conv : BitVec t.width → BitVec ret.width) :
    Prop :=
  ∀ {env : Env} {e : CExpr} {v : BitVec t.width}, e.eval env = some (.ofBits t v) →
    ((cast e).eval env).map (convert · ret) = some (.ofBits ret (conv v))

variable {cast : CExpr → CExpr} {conv : BitVec t.width → BitVec ret.width} {m : CInt}

variable (hs : t.signed = true)
include hs

/-- The quotient of a signed division, unless a special case returned early. -/
theorem eval_quotient_signed (hc : t.common t = t) (hb : b ≠ 0)
    (hab : ¬ (a = BitVec.intMin t.width ∧ b = -1#t.width)) :
    quotient.eval (argsEnv (.ofBits t a) (.ofBits t b)) = some (.ofBits t (a.sdiv b)) := by
  exact CBinary.apply_div_signed hs hc hb (not_and_or.1 hab)

theorem eval_remainder_signed (hc : t.common t = t) (hb : b ≠ 0)
    (hab : ¬ (a = BitVec.intMin t.width ∧ b = -1#t.width)) :
    remainder.eval (argsEnv (.ofBits t a) (.ofBits t b)) = some (.ofBits t (a.srem b)) := by
  exact CBinary.apply_mod_signed hs hc hb (not_and_or.1 hab)

theorem signedDivision_quotient (hc : t.common t = t)
    (hint : t.common .i32 = t) (hm : t.common m.ty = t) (hbits : m.bits t = BitVec.intMin t.width)
    (hcast : Returns ret t cast conv) (hzero : ∀ env, (onZero.eval env).map (convert · ret) =
      some (.ofBits ret (conv (BitVec.allOnes _))))
    (hover : ∀ env, (onOverflow.eval env).map (convert · ret) =
      some (.ofBits ret (conv (BitVec.intMin t.width)))) :
    (signedDivision ret t (.lit m) onZero onOverflow (cast quotient)).call
      [.ofBits t a, .ofBits t b] = some (.ofBits ret (conv (div a b))) := by
  rw [call_signedDivision hint hm hbits, div]
  split_ifs with hb hab
  · exact hzero _
  · obtain ⟨rfl, rfl⟩ := hab
    rw [hover, BitVec.intMin_sdiv_neg_one]
  · exact hcast (eval_quotient_signed hs hc hb hab)

theorem signedDivision_remainder (hc : t.common t = t)
    (hint : t.common .i32 = t) (hm : t.common m.ty = t) (hbits : m.bits t = BitVec.intMin t.width)
    (hcast : Returns ret t cast conv)
    (hover : ∀ env, (onOverflow.eval env).map (convert · ret) = some (.ofBits ret (conv 0))) :
    (signedDivision ret t (.lit m) (cast varA) onOverflow (cast remainder)).call
      [.ofBits t a, .ofBits t b] = some (.ofBits ret (conv (rem a b))) := by
  rw [call_signedDivision hint hm hbits, rem]
  split_ifs with hb hab
  · exact hcast (eval_varA _ _)
  · obtain ⟨rfl, rfl⟩ := hab
    rw [hover, Word.srem_neg_one]
  · exact hcast (eval_remainder_signed hs hc hb hab)

omit hs

theorem unsignedDivision_quotient (hs : t.signed = false) (hc : t.common t = t)
    (hint : t.common .i32 = t) (hcast : Returns ret t cast conv)
    (hzero : ∀ env, (onZero.eval env).map (convert · ret) =
      some (.ofBits ret (conv (BitVec.allOnes _)))) :
    (unsignedDivision ret t onZero (cast quotient)).call [.ofBits t a, .ofBits t b] =
      some (.ofBits ret (conv (divU a b))) := by
  rw [call_unsignedDivision hint, divU]
  split_ifs with hb
  · exact hzero _
  · apply hcast
    exact CBinary.apply_div_unsigned hs hc hb

theorem unsignedDivision_remainder (hs : t.signed = false) (hc : t.common t = t)
    (hint : t.common .i32 = t) (hcast : Returns ret t cast conv) :
    (unsignedDivision ret t (cast varA) (cast remainder)).call [.ofBits t a, .ofBits t b] =
      some (.ofBits ret (conv (remU a b))) := by
  rw [call_unsignedDivision hint, remU]
  split_ifs with hb
  · exact hcast (eval_varA _ _)
  · apply hcast
    exact CBinary.apply_mod_unsigned hs hc hb

end Division

/-! ### How the results are returned -/

theorem returns_self (t : CType) : Returns t t (fun e => e) fun v => v := by
  intro env e v he
  rw [he, Option.map_some, convert_ofBits]

theorem returns_i32 : Returns .u32 .i32 (.cast .u32) fun v : BitVec 32 => v := by
  intro env e v he
  rw [eval_cast he, Option.map_some, convert_ofBits_eq, convert_ofBits]
  exact congrArg (some <| ofBits .u32 ·) (BitVec.signExtend_eq v)

theorem returns_i64 : Returns .u64 .i64 (.cast .u64) fun v : BitVec 64 => v := by
  intro env e v he
  rw [eval_cast he, Option.map_some, convert_ofBits_eq, convert_ofBits]
  exact congrArg (some <| ofBits .u64 ·) (BitVec.signExtend_eq v)

/-- The word forms extend a signed word. -/
theorem returns_word :
    Returns .u64 .i32 (fun e => .cast .u64 (.cast .i64 e)) fun v :
      BitVec 32 => v.signExtend 64 := by
  intro env e v he
  rw [eval_cast (eval_cast he), Option.map_some, convert_ofBits_eq .i64,
    convert_ofBits_eq .u64, convert_ofBits]
  exact congrArg (some <| ofBits .u64 ·) (BitVec.signExtend_eq (v.signExtend 64))

theorem returns_unsignedWord :
    Returns .u64 .u32 (fun e => .cast .u64 (.cast .i64 (.cast .i32 e)))
      fun v : BitVec 32 => v.signExtend 64 := by
  intro env e v he
  have hi32 : (CExpr.cast .i32 e).eval env = some (.ofBits .i32 v) := by
    rw [eval_cast he, convert_ofBits_eq]
    exact congrArg (some <| ofBits .i32 ·) (BitVec.setWidth_eq v)
  exact returns_word hi32

/-! ### The helpers -/

theorem rvDiv_eq (a b : BitVec 32) :
    rvDiv.call [.ofBits .i32 a, .ofBits .i32 b] = some (.ofBits .u32 (div a b)) :=
  signedDivision_quotient rfl rfl rfl rfl rfl returns_i32 (fun _ => rfl) fun _ => rfl

theorem rvRem_eq (a b : BitVec 32) :
    rvRem.call [.ofBits .i32 a, .ofBits .i32 b] = some (.ofBits .u32 (rem a b)) :=
  signedDivision_remainder rfl rfl rfl rfl rfl returns_i32 fun _ => rfl

theorem rvDivu_eq (a b : BitVec 32) :
    rvDivu.call [.ofBits .u32 a, .ofBits .u32 b] = some (.ofBits .u32 (divU a b)) :=
  unsignedDivision_quotient rfl rfl rfl (returns_self .u32) fun _ => rfl

theorem rvRemu_eq (a b : BitVec 32) :
    rvRemu.call [.ofBits .u32 a, .ofBits .u32 b] = some (.ofBits .u32 (remU a b)) :=
  unsignedDivision_remainder rfl rfl rfl (returns_self .u32)

theorem rvDiv64_eq (a b : BitVec 64) :
    rvDiv64.call [.ofBits .i64 a, .ofBits .i64 b] = some (.ofBits .u64 (div a b)) :=
  signedDivision_quotient rfl rfl rfl rfl rfl returns_i64 (fun _ => rfl) fun _ => rfl

theorem rvRem64_eq (a b : BitVec 64) :
    rvRem64.call [.ofBits .i64 a, .ofBits .i64 b] = some (.ofBits .u64 (rem a b)) :=
  signedDivision_remainder rfl rfl rfl rfl rfl returns_i64 fun _ => rfl

theorem rvDivu64_eq (a b : BitVec 64) :
    rvDivu64.call [.ofBits .u64 a, .ofBits .u64 b] = some (.ofBits .u64 (divU a b)) :=
  unsignedDivision_quotient rfl rfl rfl (returns_self .u64) fun _ => rfl

theorem rvRemu64_eq (a b : BitVec 64) :
    rvRemu64.call [.ofBits .u64 a, .ofBits .u64 b] = some (.ofBits .u64 (remU a b)) :=
  unsignedDivision_remainder rfl rfl rfl (returns_self .u64)

theorem rvDivw_eq (a b : BitVec 32) : rvDivw.call [.ofBits .i32 a, .ofBits .i32 b] =
    some (.ofBits .u64 ((div a b).signExtend 64)) :=
  signedDivision_quotient rfl rfl rfl rfl rfl returns_word (fun _ => rfl) fun _ => rfl

theorem rvRemw_eq (a b : BitVec 32) : rvRemw.call [.ofBits .i32 a, .ofBits .i32 b] =
    some (.ofBits .u64 ((rem a b).signExtend 64)) :=
  signedDivision_remainder rfl rfl rfl rfl rfl returns_word fun _ => rfl

theorem rvDivuw_eq (a b : BitVec 32) : rvDivuw.call [.ofBits .u32 a, .ofBits .u32 b] =
    some (.ofBits .u64 ((divU a b).signExtend 64)) :=
  unsignedDivision_quotient rfl rfl rfl returns_unsignedWord fun _ => rfl

theorem rvRemuw_eq (a b : BitVec 32) : rvRemuw.call [.ofBits .u32 a, .ofBits .u32 b] =
    some (.ofBits .u64 ((remU a b).signExtend 64)) :=
  unsignedDivision_remainder rfl rfl rfl returns_unsignedWord

/-! ## Multiply-high -/

section MulHigh

variable {env : Env} {ta tb wide : CType} {a : BitVec ta.width} {b : BitVec tb.width}

variable {w : ℕ}

/-- A signed and an unsigned factor of half the width have a product that fits; so have two signed
ones. -/
theorem wrap_mul {x y : ℤ} (hs : wide.signed = true) (hw : wide.width = 2 * (w + 1))
    (hx : |x| ≤ 2 ^ w) (hy : |y| < 2 ^ (w + 1)) : wide.wrap (x * y) = x * y := by
  apply CType.wrap_of_abs_lt hs
  have hwidth : wide.width - 1 = w + (w + 1) := by omega
  calc |x * y| = |x| * |y| := abs_mul x y
    _ ≤ 2 ^ w * |y| := mul_le_mul_of_nonneg_right hx (abs_nonneg y)
    _ < 2 ^ w * 2 ^ (w + 1) := mul_lt_mul_of_pos_left hy (by positivity)
    _ = 2 ^ (wide.width - 1) := by rw [hwidth, pow_add 2 w (w + 1)]

theorem wrap_mul_unsigned (hs : wide.signed = false) (hw : wide.width = 2 * w) (a b : BitVec w) :
    wide.wrap ((a.toNat : ℤ) * b.toNat) = a.toNat * b.toNat := by
  apply CType.wrap_natCast hs
  rw [hw, two_mul, pow_add]
  exact Nat.mul_lt_mul'' a.isLt b.isLt

theorem abs_toInt_le (x : BitVec (w + 1)) : |x.toInt| ≤ 2 ^ w :=
  abs_le.2 ⟨x.le_toInt, x.toInt_lt.le⟩

theorem abs_toInt_lt (x : BitVec (w + 1)) : |x.toInt| < 2 ^ (w + 1) :=
  (abs_toInt_le x).trans_lt (pow_lt_pow_right₀ (by decide) (Nat.lt_succ_self w))

theorem abs_toNat_lt (x : BitVec w) : |(x.toNat : ℤ)| < 2 ^ w := by
  exact_mod_cast x.isLt

/-- The high bits of a value, cast to a narrower type. -/
theorem eval_high {u : CType} {e : CExpr} {n : ℤ} {k : ℕ} {h : wide.wrap n = n}
    (he : e.eval env = some ⟨wide, n, h⟩) (hp : wide.promote = wide) (hk : k < wide.width)
    (hint : (ofInt .i32 k).val = k) (hu : u.width ≤ wide.width) :
    (CExpr.cast u (.binary .shr e (int k))).eval env =
      some (.ofBits u (BitVec.ofInt _ (n / 2 ^ k))) := by
  have hshr := @eval_binary env e (int k) _ _ .shr he (by rw [int, eval])
  rw [eval_cast (hshr.trans (CBinary.apply_shr hp hint hk))]
  exact congrArg (some <| ofBits u ·) (CType.ofInt_wrap hu _)

/-- A factor cast to a wider type that keeps its sign. -/
theorem eval_widened {s : CType} {e : CExpr} {v : BitVec s.width}
    (he : e.eval env = some (.ofBits s v)) (hw : s.width < wide.width)
    (hs : s.signed = true → wide.signed = true) : (CExpr.cast wide e).eval env =
      some ⟨wide, s.read v, CType.wrap_read_of_lt hw hs v⟩ := by
  rw [eval_cast he, convert_eq (CType.wrap_read_of_lt hw hs v)]
  rfl

theorem mulHigh32_eq {ea eb : CExpr} {x y : ℤ} {hx : wide.wrap x = x} {hy : wide.wrap y = y}
    (ha : ea.eval (argsEnv (.ofBits ta a) (.ofBits tb b)) = some ⟨wide, x, hx⟩)
    (hb : eb.eval (argsEnv (.ofBits ta a) (.ofBits tb b)) = some ⟨wide, y, hy⟩)
    (hc : wide.common wide = wide) (hp : wide.promote = wide) (hw : wide.width = 64)
    (hfits : wide.wrap (x * y) = x * y) :
    (mulHigh32 ta tb ea eb).call [.ofBits ta a, .ofBits tb b] =
      some (.ofBits .u32 (highHalf 32 (x * y))) := by
  have hmul := (eval_binary ha hb).trans (CBinary.apply_mul hx hy hc hfits)
  have hhigh := @eval_high _ _ .u32 _ _ 32 _ hmul hp (by omega) rfl (by rw [hw]; decide)
  rw [mulHigh32, call_two, CLang.CStmt.exec, hhigh, Option.map_some, convert_ofBits]
  rfl

theorem mulHigh64_eq (hwa : ta.width < wide.width) (hwb : tb.width < wide.width)
    (hsa : ta.signed = true → wide.signed = true) (hsb : tb.signed = true → wide.signed = true)
    (hc : wide.common wide = wide) (hp : wide.promote = wide) (hw : wide.width = 128)
    (hfits : wide.wrap (ta.read a * tb.read b) = ta.read a * tb.read b) :
    (mulHigh64 ta tb wide).call [.ofBits ta a, .ofBits tb b] =
      some (.ofBits .u64 (highHalf 64 (ta.read a * tb.read b))) := by
  have ha := eval_widened (eval_varA (.ofBits ta a) (.ofBits tb b)) hwa hsa
  have hb := eval_widened (eval_varB (.ofBits ta a) (.ofBits tb b)) hwb hsb
  have hmul := (eval_binary ha hb).trans (CBinary.apply_mul _ _ hc hfits)
  have hprod := eval_var (Env.vars_set_self
    (argsEnv (.ofBits ta a) (.ofBits tb b)) "prod" ⟨wide, ta.read a * tb.read b, hfits⟩)
  have hhigh := @eval_high _ _ .u64 _ _ 64 _ hprod hp (by omega) rfl (by rw [hw]; decide)
  rw [mulHigh64, call_two, CLang.CStmt.exec, hmul, Option.bind_some, convert_eq hfits,
    CLang.CStmt.exec,
    hhigh, Option.map_some, convert_ofBits]
  rfl

end MulHigh

theorem rvMulh_eq (a b : BitVec 32) : rvMulh.call [.ofBits .i32 a, .ofBits .i32 b] =
    some (.ofBits .u32 (highHalf 32 (a.toInt * b.toInt))) :=
  mulHigh32_eq (eval_widened (eval_varA _ _) (by decide) fun _ => rfl)
    (eval_widened (eval_varB _ _) (by decide) fun _ => rfl) rfl rfl rfl
    (wrap_mul (w := 31) rfl rfl (abs_toInt_le a) (abs_toInt_lt b))

/-- The unsigned factor is widened before it becomes signed. -/
theorem rvMulhsu_eq (a b : BitVec 32) : rvMulhsu.call [.ofBits .i32 a, .ofBits .u32 b] =
    some (.ofBits .u32 (highHalf 32 (a.toInt * b.toNat))) := by
  have hwide : CType.i64.wrap (b.toNat : ℤ) = b.toNat :=
    CType.wrap_read_of_lt (s := .u32) (by decide) (fun h => by cases h) b
  have hwidened : (CExpr.cast .u64 varB).eval (argsEnv (.ofBits .i32 a) (.ofBits .u32 b)) =
      some ⟨.u64, b.toNat, _⟩ := eval_widened (eval_varB _ _) (by decide) fun h => by cases h
  have hb := (eval_cast hwidened).trans (congrArg some (convert_eq hwide))
  exact mulHigh32_eq (eval_widened (eval_varA _ _) (by decide) fun _ => rfl) hb rfl rfl rfl
    (wrap_mul (w := 31) rfl rfl (abs_toInt_le a) (abs_toNat_lt b))

theorem rvMulhu_eq (a b : BitVec 32) : rvMulhu.call [.ofBits .u32 a, .ofBits .u32 b] =
    some (.ofBits .u32 (highHalf 32 (a.toNat * b.toNat))) :=
  mulHigh32_eq (eval_widened (eval_varA _ _) (by decide) fun h => by cases h)
    (eval_widened (eval_varB _ _) (by decide) fun h => by cases h) rfl rfl rfl
    (wrap_mul_unsigned rfl rfl a b)

theorem rvMulh64_eq (a b : BitVec 64) : rvMulh64.call [.ofBits .i64 a, .ofBits .i64 b] =
    some (.ofBits .u64 (highHalf 64 (a.toInt * b.toInt))) :=
  mulHigh64_eq (by decide) (by decide) (fun _ => rfl) (fun _ => rfl) rfl rfl rfl
    (wrap_mul (w := 63) rfl rfl (abs_toInt_le a) (abs_toInt_lt b))

theorem rvMulhsu64_eq (a b : BitVec 64) : rvMulhsu64.call [.ofBits .i64 a, .ofBits .u64 b] =
    some (.ofBits .u64 (highHalf 64 (a.toInt * b.toNat))) :=
  mulHigh64_eq (by decide) (by decide) (fun _ => rfl) (fun _ => rfl) rfl rfl rfl
    (wrap_mul (w := 63) rfl rfl (abs_toInt_le a) (abs_toNat_lt b))

theorem rvMulhu64_eq (a b : BitVec 64) : rvMulhu64.call [.ofBits .u64 a, .ofBits .u64 b] =
    some (.ofBits .u64 (highHalf 64 (a.toNat * b.toNat))) :=
  mulHigh64_eq (by decide) (by decide) (fun h => by cases h) (fun h => by cases h) rfl rfl rfl
    (wrap_mul_unsigned rfl rfl a b)

/-! ## Bit manipulation -/

section Linear

variable {w : ℕ}

theorem orLinear_orc8 : OrLinear (orc8 : BitVec w → BitVec w) where
  zero := by
    apply BitVec.eq_of_getLsbD_eq
    intro i hi
    simp [orc8, hi]
  or x y := by
    apply BitVec.eq_of_getLsbD_eq
    intro i hi
    have hbyte : ∀ b c : BitVec 8, (b ||| c != 0#8) = ((b != 0#8) || (c != 0#8)) := by
      intro b c
      rw [Bool.eq_iff_iff, bne_iff_ne, Bool.or_eq_true, bne_iff_ne, bne_iff_ne, Ne,
        BitVec.or_eq_zero_iff, not_and_or]
    simp only [orc8, BitVec.getLsbD_or, BitVec.getLsbD_ofFnLE, dif_pos hi,
      BitVec.extractLsb'_or, BitVec.ofNat_eq_ofNat, hbyte]

theorem orLinear_brev8 : OrLinear (Ops.brev8 : BitVec w → BitVec w) :=
  .of_permutation (fun i => 8 * (i / 8) + (7 - i % 8)) fun x i hi => by
    rw [Ops.brev8, BitVec.getLsbD_ofFnLE, dif_pos hi]

theorem orLinear_zip32 : OrLinear zip32 :=
  .of_permutation (fun i => i / 2 + if i % 2 = 0 then 0 else 16) fun x i hi => by
    rw [zip32, BitVec.getLsbD_ofFnLE, dif_pos hi]

theorem orLinear_unzip32 : OrLinear unzip32 :=
  .of_permutation (fun i => 2 * (i % 16) + if i < 16 then 0 else 1) fun x i hi => by
    rw [unzip32, BitVec.getLsbD_ofFnLE, dif_pos hi]

end Linear

/-- A helper computes a function on the arguments with a single bit. -/
abbrev OnBits (f : CDef) (t : CType) (g : BitVec t.width → BitVec t.width) : Prop :=
  ∀ i < t.width, f.call [.ofBits t (.twoPow _ i)] = some (.ofBits t (g (.twoPow _ i)))

theorem networks_onBits :
    OnBits rvOrcB32 .u32 orc8 ∧ OnBits rvOrcB64 .u64 orc8 ∧ OnBits rvBrev832 .u32 Ops.brev8 ∧
    OnBits rvBrev864 .u64 Ops.brev8 ∧ OnBits rvZip32 .u32 zip32 ∧
      OnBits rvUnzip32 .u32 unzip32 := by
  decide +kernel

variable (x : BitVec 32)

theorem rvOrcB32_eq :
    rvOrcB32.call [.ofBits .u32 x] = some (.ofBits .u32 (orc8 x)) :=
  CDef.call_network (t := .u32) ⟨rfl, rfl⟩ rfl orLinear_orc8 networks_onBits.1 x

theorem rvOrcB64_eq (x : BitVec 64) :
    rvOrcB64.call [.ofBits .u64 x] = some (.ofBits .u64 (orc8 x)) :=
  CDef.call_network (t := .u64) ⟨rfl, rfl⟩ rfl orLinear_orc8 networks_onBits.2.1 x

theorem rvBrev832_eq :
    rvBrev832.call [.ofBits .u32 x] = some (.ofBits .u32 (Ops.brev8 x)) :=
  CDef.call_network (t := .u32) ⟨rfl, rfl⟩ rfl orLinear_brev8 networks_onBits.2.2.1 x

theorem rvBrev864_eq (x : BitVec 64) :
    rvBrev864.call [.ofBits .u64 x] = some (.ofBits .u64 (Ops.brev8 x)) :=
  CDef.call_network (t := .u64) ⟨rfl, rfl⟩ rfl orLinear_brev8 networks_onBits.2.2.2.1 x

theorem rvZip32_eq :
    rvZip32.call [.ofBits .u32 x] = some (.ofBits .u32 (zip32 x)) :=
  CDef.call_network (t := .u32) ⟨rfl, rfl⟩ rfl orLinear_zip32 networks_onBits.2.2.2.2.1 x

theorem rvUnzip32_eq :
    rvUnzip32.call [.ofBits .u32 x] = some (.ofBits .u32 (unzip32 x)) :=
  CDef.call_network (t := .u32) ⟨rfl, rfl⟩ rfl orLinear_unzip32 networks_onBits.2.2.2.2.2 x

theorem unzip32_zip32 : unzip32 (zip32 x) = x :=
  (orLinear_unzip32.comp orLinear_zip32).ext .id (by decide +kernel) x

theorem zip32_unzip32 : zip32 (unzip32 x) = x :=
  (orLinear_zip32.comp orLinear_unzip32).ext .id (by decide +kernel) x

/-! ## All helpers -/

/-- A helper of one parameter has a value on every argument, and the value has the given bits. -/
def Computes₁ (f : CDef) (t ret : CType) (v : BitVec t.width → BitVec ret.width) : Prop :=
  ∀ x, f.call [.ofBits t x] = some (.ofBits ret (v x))

/-- A helper of two parameters has a value on all arguments, and the value has the given bits. -/
def Computes₂ (f : CDef) (ta tb ret : CType)
    (v : BitVec ta.width → BitVec tb.width → BitVec ret.width) : Prop :=
  ∀ a b, f.call [.ofBits ta a, .ofBits tb b] = some (.ofBits ret (v a b))

/-- One function undoes the other. -/
def Undoes (f g : CDef) (t : CType) : Prop :=
  ∀ x, (g.call [.ofBits t x]).bind (fun y => f.call [y]) = some (.ofBits t x)

theorem undoes_of_computes {f g : CDef} {t : CType} {vf vg : BitVec t.width → BitVec t.width}
    (hf : Computes₁ f t t vf) (hg : Computes₁ g t t vg) (h : ∀ x, vf (vg x) = x) :
    Undoes f g t := fun x => by rw [hg x, Option.bind_some, hf, h]

theorem zip_val : zip32 x = UnaryBitOp.val x .zip := by
  rw [zip32_eq, UnaryBitOp.val, BitVec.setWidth_eq, BitVec.setWidth_eq]

theorem unzip_val : unzip32 x = UnaryBitOp.val x .unzip := by
  rw [unzip32_eq, UnaryBitOp.val, BitVec.setWidth_eq, BitVec.setWidth_eq]

/-- The helpers of the C header are defined on every argument and compute the specified values. -/
theorem helpers_compute :
    -- division at both widths
    (Computes₂ rvDiv .i32 .i32 .u32 fun a b => RegOp.val a b .div) ∧
    (Computes₂ rvDivu .u32 .u32 .u32 fun a b => RegOp.val a b .divu) ∧
    (Computes₂ rvRem .i32 .i32 .u32 fun a b => RegOp.val a b .rem) ∧
    (Computes₂ rvRemu .u32 .u32 .u32 fun a b => RegOp.val a b .remu) ∧
    (Computes₂ rvDiv64 .i64 .i64 .u64 fun a b => RegOp.val a b .div) ∧
    (Computes₂ rvDivu64 .u64 .u64 .u64 fun a b => RegOp.val a b .divu) ∧
    (Computes₂ rvRem64 .i64 .i64 .u64 fun a b => RegOp.val a b .rem) ∧
    (Computes₂ rvRemu64 .u64 .u64 .u64 fun a b => RegOp.val a b .remu) ∧
    -- the word forms
    (Computes₂ rvDivw .i32 .i32 .u64 fun a b => (RegOp.val a b WordOp.divw.regOp).signExtend 64) ∧
    (Computes₂ rvDivuw .u32 .u32 .u64 fun a b => (RegOp.val a b WordOp.divuw.regOp).signExtend 64) ∧
    (Computes₂ rvRemw .i32 .i32 .u64 fun a b => (RegOp.val a b WordOp.remw.regOp).signExtend 64) ∧
    (Computes₂ rvRemuw .u32 .u32 .u64 fun a b => (RegOp.val a b WordOp.remuw.regOp).signExtend 64) ∧
    -- the high halves of products
    (Computes₂ rvMulh .i32 .i32 .u32 fun a b => RegOp.val a b .mulh) ∧
    (Computes₂ rvMulhsu .i32 .u32 .u32 fun a b => RegOp.val a b .mulhsu) ∧
    (Computes₂ rvMulhu .u32 .u32 .u32 fun a b => RegOp.val a b .mulhu) ∧
    (Computes₂ rvMulh64 .i64 .i64 .u64 fun a b => RegOp.val a b .mulh) ∧
    (Computes₂ rvMulhsu64 .i64 .u64 .u64 fun a b => RegOp.val a b .mulhsu) ∧
    (Computes₂ rvMulhu64 .u64 .u64 .u64 fun a b => RegOp.val a b .mulhu) ∧
    -- bytes and bits
    (Computes₁ rvOrcB32 .u32 .u32 fun x => UnaryBitOp.val x .orcB) ∧
    (Computes₁ rvOrcB64 .u64 .u64 fun x => UnaryBitOp.val x .orcB) ∧
    (Computes₁ rvBrev832 .u32 .u32 fun x => UnaryBitOp.val x .brev8) ∧
    (Computes₁ rvBrev864 .u64 .u64 fun x => UnaryBitOp.val x .brev8) ∧
    (Computes₁ rvZip32 .u32 .u32 fun x => UnaryBitOp.val x .zip) ∧
    (Computes₁ rvUnzip32 .u32 .u32 fun x => UnaryBitOp.val x .unzip) ∧
    Undoes rvUnzip32 rvZip32 .u32 ∧ Undoes rvZip32 rvUnzip32 .u32 := by
  have hbits : ∀ {ret : CType} {r : Option CInt} {x y : BitVec ret.width},
      r = some (.ofBits ret x) → x = y → r = some (.ofBits ret y) := by
    rintro ret r x y hr rfl
    exact hr
  exact ⟨fun a b => hbits (rvDiv_eq a b) (div_eq_divSigned a b),
    fun a b => hbits (rvDivu_eq a b) (divU_eq_divUnsigned a b),
    fun a b => hbits (rvRem_eq a b) (rem_eq_remSigned a b),
    fun a b => hbits (rvRemu_eq a b) (remU_eq_remUnsigned a b),
    fun a b => hbits (rvDiv64_eq a b) (div_eq_divSigned a b),
    fun a b => hbits (rvDivu64_eq a b) (divU_eq_divUnsigned a b),
    fun a b => hbits (rvRem64_eq a b) (rem_eq_remSigned a b),
    fun a b => hbits (rvRemu64_eq a b) (remU_eq_remUnsigned a b),
    fun a b => hbits (rvDivw_eq a b) (congrArg _ (div_eq_divSigned a b)),
    fun a b => hbits (rvDivuw_eq a b) (congrArg _ (divU_eq_divUnsigned a b)),
    fun a b => hbits (rvRemw_eq a b) (congrArg _ (rem_eq_remSigned a b)),
    fun a b => hbits (rvRemuw_eq a b) (congrArg _ (remU_eq_remUnsigned a b)),
    rvMulh_eq, rvMulhsu_eq, rvMulhu_eq, rvMulh64_eq, rvMulhsu64_eq, rvMulhu64_eq,
    fun x => hbits (rvOrcB32_eq x) (orc8_eq (by decide) x),
    fun x => hbits (rvOrcB64_eq x) (orc8_eq (by decide) x),
    fun x => hbits (rvBrev832_eq x) (brev8_eq (by decide) x),
    fun x => hbits (rvBrev864_eq x) (brev8_eq (by decide) x),
    fun x => hbits (rvZip32_eq x) (zip_val x), fun x => hbits (rvUnzip32_eq x) (unzip_val x),
    undoes_of_computes rvUnzip32_eq rvZip32_eq unzip32_zip32,
    undoes_of_computes rvZip32_eq rvUnzip32_eq zip32_unzip32⟩

end Rvr.CHelpers
