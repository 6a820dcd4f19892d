import Rvr.Lib.Word

/-!
# Integer expressions of C

The integer types of an LP64 platform, the usual arithmetic conversions, and the value of an
expression.  An expression whose behaviour is undefined (signed overflow, a division by zero, a
shift by the width of the left operand or more) or that reads an unknown name has no value.  Right
shifts of negative values are arithmetic.

A value carries its type and is in the range of that type.  `BitVec.ofInt w v.val` is the residue of
a value modulo `2 ^ w`; conversions to types of at least `w` bits keep it.
-/

namespace CLang

open BitVec

/-! ## Types -/

/-- The integer types; `int` is `i32`, `long` and `int64_t` are `i64`, `__int128` is `i128`. -/
inductive CType
  | i8 | u8 | i16 | u16 | i32 | u32 | i64 | u64 | i128 | u128
  deriving DecidableEq, Repr

namespace CType

def width : CType → ℕ
  | i8 | u8 => 8
  | i16 | u16 => 16
  | i32 | u32 => 32
  | i64 | u64 => 64
  | i128 | u128 => 128

def signed : CType → Bool
  | i8 | i16 | i32 | i64 | i128 => true
  | u8 | u16 | u32 | u64 | u128 => false

/-- The integer that the bits of a type stand for. -/
def read (t : CType) (b : BitVec t.width) : ℤ := if t.signed then b.toInt else b.toNat

/-- The value of the type that is congruent to an integer. -/
def wrap (t : CType) (n : ℤ) : ℤ := t.read (BitVec.ofInt t.width n)

/-- The types that are narrower than `int` are promoted to it. -/
def promote : CType → CType
  | i8 | u8 | i16 | u16 => i32
  | t => t

/-- The usual arithmetic conversions. -/
def common (a b : CType) : CType :=
  match a.promote, b.promote with
  | u128, _ | _, u128 => u128
  | i128, _ | _, i128 => i128
  | u64, _ | _, u64 => u64
  | i64, _ | _, i64 => i64
  | u32, _ | _, u32 => u32
  | _, _ => i32

variable {t : CType}

theorem ofInt_read (b : BitVec t.width) : BitVec.ofInt t.width (t.read b) = b := by
  unfold read
  split_ifs
  · exact ofInt_toInt
  · rw [ofInt_natCast, ofNat_toNat, setWidth_eq]

@[simp] theorem wrap_read (b : BitVec t.width) : t.wrap (t.read b) = t.read b := by
  rw [wrap, ofInt_read]

@[simp] theorem wrap_wrap (t : CType) (n : ℤ) : t.wrap (t.wrap n) = t.wrap n := wrap_read _

/-- The low bits of a value are the low bits of its representation. -/
theorem ofInt_read_of_le {w : ℕ} (h : w ≤ t.width) (b : BitVec t.width) :
    BitVec.ofInt w (t.read b) = b.setWidth w := by
  unfold read
  split_ifs
  · exact signExtend_eq_setWidth_of_le b h
  · rw [ofInt_natCast, ofNat_toNat]

/-- Wrapping keeps the residue modulo a smaller power of two. -/
theorem ofInt_wrap {w : ℕ} (h : w ≤ t.width) (n : ℤ) :
    BitVec.ofInt w (t.wrap n) = BitVec.ofInt w n := by
  rw [wrap, ofInt_read_of_le h]
  exact Word.setWidth_ofInt h n

/-- An unsigned type holds the numbers below two to the power of its width. -/
theorem wrap_natCast (ht : t.signed = false) {n : ℕ} (h : n < 2 ^ t.width) :
    t.wrap n = n := by
  rw [wrap, read, ht, ofInt_natCast, if_neg Bool.false_ne_true, toNat_ofNat,
    Nat.mod_eq_of_lt h]

/-- A signed type holds the numbers below half of that. -/
theorem wrap_natCast_of_signed (ht : t.signed = true) {n : ℕ} (h : 2 * n < 2 ^ t.width) :
    t.wrap n = n := by
  rw [wrap, read, ht, if_pos rfl, ofInt_natCast, toInt_eq_toNat_of_lt]
  · rw [toNat_ofNat, Nat.mod_eq_of_lt (by omega)]
  · rw [toNat_ofNat, Nat.mod_eq_of_lt (by omega)]
    exact h

end CType

/-! ## Values -/

/-- An integer of a type. -/
structure CInt where
  ty : CType
  val : ℤ
  wrap_val : ty.wrap val = val
  deriving DecidableEq

namespace CInt

/-- The value of a type that is congruent to an integer. -/
def ofInt (t : CType) (n : ℤ) : CInt := ⟨t, t.wrap n, t.wrap_wrap n⟩

/-- The result of an operation in a type: unsigned results wrap, signed ones must fit. -/
def checked (t : CType) (n : ℤ) : Option CInt :=
  if h : t.wrap n = n then some ⟨t, n, h⟩ else if t.signed then none else some (ofInt t n)

/-- The conversion to a type. -/
def convert (v : CInt) (t : CType) : CInt := ofInt t v.val

/-- The representation of a value in a type. -/
def bits (v : CInt) (t : CType) : BitVec t.width := BitVec.ofInt t.width v.val

/-- The value with given bits. -/
def ofBits (t : CType) (b : BitVec t.width) : CInt := ⟨t, t.read b, CType.wrap_read b⟩

variable (t : CType)

@[simp] theorem ofInt_read (b : BitVec t.width) : ofInt t (t.read b) = ofBits t b := by
  simp only [ofInt, ofBits, CType.wrap_read]

theorem ofInt_eq (n : ℤ) : ofInt t n = ofBits t (BitVec.ofInt t.width n) := rfl

@[simp] theorem ty_ofBits (b : BitVec t.width) : (ofBits t b).ty = t := rfl

@[simp] theorem val_ofBits (b : BitVec t.width) : (ofBits t b).val = t.read b := rfl

@[simp] theorem bits_ofBits (b : BitVec t.width) : (ofBits t b).bits t = b :=
  CType.ofInt_read b

@[simp] theorem bits_convert (v : CInt) (t : CType) : (v.convert t).bits t = v.bits t := by
  rw [convert, ofInt_eq, bits_ofBits, bits]

theorem ofInt_toNat {t : CType} (b : BitVec t.width) : ofInt t b.toNat = ofBits t b := by
  rw [ofInt_eq, ofInt_natCast, ofNat_toNat, setWidth_eq]

/-- An unsigned value is converted by extending it with zeros or cutting it. -/
theorem bits_ofBits_of_unsigned {t : CType} (ht : t.signed = false) (b : BitVec t.width)
    (u : CType) : (ofBits t b).bits u = b.setWidth u.width := by
  rw [bits, val_ofBits, CType.read, ht, if_neg Bool.false_ne_true, ofInt_natCast,
    ofNat_toNat]

/-- An unsigned operation never overflows. -/
theorem checked_of_unsigned {t : CType} (h : t.signed = false) (n : ℤ) :
    checked t n = some (ofBits t (BitVec.ofInt t.width n)) := by
  unfold checked
  split_ifs with hfits
  · rw [← ofInt_eq]
    simp only [ofInt, hfits]
  · rw [h] at *
    contradiction
  · rfl

/-- The truth value of a comparison. -/
def ofBool (b : Bool) : CInt := ofInt .i32 (if b then 1 else 0)

end CInt

/-- One step from an object to a part of it. -/
inductive Step
  | arrow (field : String)
  | index (i : ℕ)
  deriving DecidableEq, Repr

/-- An object: a variable, or what is reached from one. -/
structure Place where
  root : String
  path : List Step
  deriving DecidableEq, Repr

/-- What an object or an argument holds. -/
inductive CValue
  | int (v : CInt)
  | ptr (p : Place)
  deriving DecidableEq

/-- A function that returns an integer; it has no value on arguments it is not defined for. -/
structure CFun where
  ret : CType
  run : List CValue → Option ℤ

/-- The objects and functions in scope. -/
structure Env where
  vars : Place → Option CValue
  fns : String → Option CFun

/-! ## Expressions -/

inductive CUnary
  | compl | neg
  deriving DecidableEq, Repr

inductive CBinary
  | mul | div | mod | add | sub | shl | shr | lt | gt | le | ge | eq | ne | band | bxor | bor
  deriving DecidableEq, Repr

/-- Integer expressions; `addr` only occurs as an argument. -/
inductive CExpr
  | lit (v : CInt)
  | place (p : Place)
  | addr (p : Place)
  | cast (t : CType) (e : CExpr)
  | unary (op : CUnary) (e : CExpr)
  | binary (op : CBinary) (l r : CExpr)
  | land (l r : CExpr)
  | cond (c t e : CExpr)
  | call (fn : String) (args : List CExpr)

/-- The type of a hexadecimal literal without a suffix: the first one that it fits in. -/
def hexType (n : ℕ) : CType :=
  if n < 2 ^ 31 then .i32 else if n < 2 ^ 32 then .u32 else if n < 2 ^ 63 then .i64 else .u64

/-- A literal fits in its type. -/
theorem wrap_hexType {n : ℕ} (h : n < 2 ^ 64) : (hexType n).wrap n = n := by
  unfold hexType
  split_ifs with h31 h32 h63
  · exact CType.wrap_natCast_of_signed rfl (show 2 * n < 2 ^ 32 by omega)
  · exact CType.wrap_natCast rfl h32
  · exact CType.wrap_natCast_of_signed rfl (show 2 * n < 2 ^ 64 by omega)
  · exact CType.wrap_natCast rfl h

/-- The type of an operation on operands of given types. -/
def CBinary.resultType (op : CBinary) (l r : CType) : CType :=
  match op with
  | .shl | .shr => l.promote
  | .lt | .gt | .le | .ge | .eq | .ne => .i32
  | .mul | .div | .mod | .add | .sub | .band | .bxor | .bor => l.common r

/-- The type of an expression. -/
def CExpr.typeOf (env : Env) : CExpr → Option CType
  | .lit v => some v.ty
  | .place p =>
    match env.vars p with
    | some (.int v) => some v.ty
    | _ => none
  | .addr _ => none
  | .cast t _ => some t
  | .unary _ e => (e.typeOf env).map CType.promote
  | .binary op l r =>
    (l.typeOf env).bind fun tl => (r.typeOf env).map fun tr => op.resultType tl tr
  | .land _ _ => some .i32
  | .cond _ t e => (t.typeOf env).bind fun tt => (e.typeOf env).map fun te => tt.common te
  | .call fn _ => (env.fns fn).map CFun.ret

def CUnary.apply (op : CUnary) (v : CInt) : Option CInt :=
  let t := v.ty.promote
  match op with
  | .compl => some (.ofInt t (t.read (~~~ v.bits t)))
  | .neg => CInt.checked t (-v.val)

/-- A shift by an amount that is not below the width of the left operand is undefined, and so is a
left shift of a signed value that is negative or overflows. -/
def shift (left : Bool) (l r : CInt) : Option CInt :=
  let t := l.ty.promote
  if 0 ≤ r.val ∧ r.val < t.width then
    if left then
      if t.signed ∧ l.val < 0 then none else CInt.checked t (l.val * 2 ^ r.val.toNat)
    else some (.ofInt t (l.val / 2 ^ r.val.toNat))
  else none

def CBinary.apply (op : CBinary) (l r : CInt) : Option CInt :=
  let t := l.ty.common r.ty
  let a := (l.convert t).val
  let b := (r.convert t).val
  match op with
  | .mul => CInt.checked t (a * b)
  | .div => if b = 0 then none else CInt.checked t (a.tdiv b)
  -- a remainder is only defined where the quotient is
  | .mod =>
    if b = 0 then none else (CInt.checked t (a.tdiv b)).bind fun _ => CInt.checked t (a.tmod b)
  | .add => CInt.checked t (a + b)
  | .sub => CInt.checked t (a - b)
  | .shl => shift true l r
  | .shr => shift false l r
  | .lt => some (.ofBool (a < b))
  | .gt => some (.ofBool (b < a))
  | .le => some (.ofBool (a ≤ b))
  | .ge => some (.ofBool (b ≤ a))
  | .eq => some (.ofBool (a = b))
  | .ne => some (.ofBool (a ≠ b))
  | .band => some (.ofInt t (t.read (l.bits t &&& r.bits t)))
  | .bxor => some (.ofInt t (t.read (l.bits t ^^^ r.bits t)))
  | .bor => some (.ofInt t (t.read (l.bits t ||| r.bits t)))

section Unsigned

variable {t : CType} {l r : CInt}

theorem CBinary.apply_band (h : l.ty.common r.ty = t) :
    CBinary.band.apply l r = some (.ofBits t (l.bits t &&& r.bits t)) := by
  subst h
  exact congrArg some (CInt.ofInt_read _ _)

/-- Differences in an unsigned type wrap. -/
theorem CBinary.apply_sub (h : l.ty.common r.ty = t) (ht : t.signed = false) :
    CBinary.sub.apply l r = some (.ofBits t (l.bits t - r.bits t)) := by
  subst h
  rw [← CInt.bits_convert l, ← CInt.bits_convert r]
  refine (CInt.checked_of_unsigned ht _).trans ?_
  rw [Int.sub_eq_add_neg, ofInt_add, ofInt_neg, ← sub_eq_add_neg]
  rfl

/-- A right shift in an unsigned type is logical. -/
theorem CBinary.apply_shr_ofBits (x : BitVec t.width) (hp : t.promote = t) (ht : t.signed = false)
    {k : ℕ} (hr : r.val = k) (hk : k < t.width) :
    CBinary.shr.apply (.ofBits t x) r = some (.ofBits t (x >>> k)) := by
  have hval : (CInt.ofBits t x).val = (x.toNat : ℤ) := by
    rw [CInt.val_ofBits, CType.read, ht]
    rfl
  have hrange : 0 ≤ r.val ∧ r.val < (t.width : ℤ) := by rw [hr]; omega
  change shift false (.ofBits t x) r = _
  unfold shift
  dsimp only [CInt.ty_ofBits]
  rw [hp, if_pos hrange, if_neg Bool.false_ne_true, hval, hr, CInt.ofInt_eq]
  congr 2
  apply eq_of_toNat_eq
  rw [toNat_ushiftRight, Nat.shiftRight_eq_div_pow]
  exact Nat.mod_eq_of_lt (Nat.lt_of_le_of_lt (Nat.div_le_self _ _) x.isLt)

end Unsigned

mutual

/-- The value of an expression. -/
def CExpr.eval (env : Env) : CExpr → Option CInt
  | .lit v => some v
  | .place p =>
    match env.vars p with
    | some (.int v) => some v
    | _ => none
  | .addr _ => none
  | .cast t e => (e.eval env).map (CInt.convert · t)
  | .unary op e => (e.eval env).bind op.apply
  | .binary op l r => (l.eval env).bind fun a => (r.eval env).bind fun b => op.apply a b
  | .land l r =>
    (l.eval env).bind fun a =>
      if a.val = 0 then some (.ofBool false) else (r.eval env).map fun b => .ofBool (b.val ≠ 0)
  | .cond c t e =>
    (c.eval env).bind fun cv => (t.typeOf env).bind fun tt => (e.typeOf env).bind fun te =>
      (if cv.val ≠ 0 then t.eval env else e.eval env).map (CInt.convert · (tt.common te))
  | .call fn args =>
    (env.fns fn).bind fun f => (CExpr.evalArgs env args).bind fun vs =>
      (f.run vs).map (CInt.ofInt f.ret)

/-- The values of arguments. -/
def CExpr.evalArgs (env : Env) : List CExpr → Option (List CValue)
  | [] => some []
  | e :: es =>
    let v :=
      match e with
      | .addr p => some (CValue.ptr p)
      | .place p => env.vars p
      | e => (e.eval env).map CValue.int
    v.bind fun v => (CExpr.evalArgs env es).map (v :: ·)

end

section Eval

variable {env : Env} {e l r : CExpr} {a b : CInt}

theorem CExpr.eval_binary {op : CBinary} (hl : l.eval env = some a) (hr : r.eval env = some b) :
    (CExpr.binary op l r).eval env = op.apply a b := by
  rw [CExpr.eval, hl, hr, Option.bind_some, Option.bind_some]

theorem CExpr.eval_cast {t : CType} (h : e.eval env = some a) :
    (CExpr.cast t e).eval env = some (a.convert t) := by
  rw [CExpr.eval, h, Option.map_some]

end Eval

end CLang
