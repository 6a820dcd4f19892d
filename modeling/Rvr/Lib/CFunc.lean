import Rvr.Lib.CLang
import Rvr.Lib.OrLinear

/-!
# Functions of C over integers

Straight-line functions with early returns.  A call has no value if an expression on its way has
none, so that a call with a value is free of undefined behaviour.

A body that only shifts by constants, masks with constants and combines with `|` in one unsigned
type is checked by `CStmt.networks`.  Such a function has a value on every argument, the value
distributes over the bits of the argument, and `CDef.call_network` reduces a statement about it to
the arguments with a single bit.
-/

namespace CLang

open BitVec CInt CBinary

/-! ## Statements and functions -/

/-- A local variable. -/
def CExpr.var (x : String) : CExpr := .place ⟨x, []⟩

inductive CStmt
  /-- `t x = e;` -/
  | declare (t : CType) (x : String) (e : CExpr)
  /-- `x = e;` -/
  | assign (x : String) (e : CExpr)
  /-- `if (c) return e;` -/
  | ifReturn (c e : CExpr)
  /-- `return e;` -/
  | ret (e : CExpr)

/-- `x op= e;` -/
def CStmt.update (op : CBinary) (x : String) (e : CExpr) : CStmt :=
  .assign x (.binary op (.var x) e)

/-- The environment with a local variable set. -/
def Env.set (env : Env) (x : String) (v : CInt) : Env :=
  { env with vars := fun p => if p = ⟨x, []⟩ then some (.int v) else env.vars p }

/-- What the statements return; an assignment keeps the type of its variable. -/
def CStmt.exec (env : Env) : List CStmt → Option CInt
  | [] => none
  | .declare t x e :: rest => (e.eval env).bind fun v => exec (env.set x (v.convert t)) rest
  | .assign x e :: rest =>
    match env.vars ⟨x, []⟩ with
    | some (.int old) => (e.eval env).bind fun v => exec (env.set x (v.convert old.ty)) rest
    | _ => none
  | .ifReturn c e :: rest =>
    (c.eval env).bind fun v => if v.val ≠ 0 then e.eval env else exec env rest
  | .ret e :: _ => e.eval env

structure CDef where
  ret : CType
  params : List (CType × String)
  body : List CStmt

/-- The environment of a call: the arguments are converted to the types of the parameters. -/
def Env.ofArgs : List (CType × String) → List CInt → Option Env
  | [], [] => some ⟨fun _ => none, fun _ => none⟩
  | (t, x) :: params, v :: args => (ofArgs params args).map (Env.set · x (v.convert t))
  | _, _ => none

/-- The value of a call. -/
def CDef.call (f : CDef) (args : List CInt) : Option CInt :=
  (Env.ofArgs f.params args).bind fun env => (CStmt.exec env f.body).map (CInt.convert · f.ret)

@[simp] theorem Env.vars_set_self (env : Env) (x : String) (v : CInt) :
    (env.set x v).vars ⟨x, []⟩ = some (.int v) := if_pos rfl

theorem Env.vars_set_of_ne (env : Env) {x y : String} (h : y ≠ x) (v : CInt) :
    (env.set x v).vars ⟨y, []⟩ = env.vars ⟨y, []⟩ :=
  if_neg fun hp => h (Place.mk.inj hp).1

theorem CExpr.eval_var {env : Env} {x : String} {v : CInt} (h : env.vars ⟨x, []⟩ = some (.int v)) :
    (CExpr.var x).eval env = some v := by
  rw [var, eval, h]

/-! ## Rules -/

section Rules

variable {t : CType} {env : Env}

theorem CStmt.exec_ifReturn {c e : CExpr} {p : Bool} (hc : c.eval env = some (.ofBool p))
    (rest : List CStmt) :
    CStmt.exec env (.ifReturn c e :: rest) = if p then e.eval env else CStmt.exec env rest := by
  rw [CStmt.exec, hc]
  cases p <;> rfl

theorem CExpr.eval_land {l r : CExpr} {p q : Bool} (hl : l.eval env = some (.ofBool p))
    (hr : r.eval env = some (.ofBool q)) : (CExpr.land l r).eval env = some (.ofBool (p && q)) := by
  rw [CExpr.eval, hl, hr]
  cases p <;> cases q <;> rfl

@[simp] theorem CInt.convert_ofBits (b : BitVec t.width) : (ofBits t b).convert t = ofBits t b := by
  rw [convert, val_ofBits, ofInt_read]

/-- A value is converted by cutting it or by extending it as its type says. -/
theorem CInt.convert_ofBits_eq (u : CType) (b : BitVec t.width) : (ofBits t b).convert u =
    ofBits u (if t.signed then b.signExtend u.width else b.setWidth u.width) := by
  rw [convert, ofInt_eq, val_ofBits, CType.read]
  split_ifs
  · rfl
  · rw [ofInt_natCast, ofNat_toNat]

theorem CType.read_inj {a b : BitVec t.width} : t.read a = t.read b ↔ a = b :=
  ⟨fun h => by rw [← ofInt_read a, h, ofInt_read], fun h => by rw [h]⟩

/-- The values of a type are in range. -/
theorem CInt.checked_read (b : BitVec t.width) : checked t (t.read b) = some (ofBits t b) :=
  dif_pos (CType.wrap_read b)

/-- Comparison with a value that does not widen the type. -/
theorem CBinary.apply_eq (b : BitVec t.width) {v : CInt} (hv : t.common v.ty = t) :
    eq.apply (.ofBits t b) v = some (.ofBool (b = v.bits t)) := by
  have hval : (v.convert t).val = t.read (v.bits t) := rfl
  unfold CBinary.apply
  dsimp only [ty_ofBits]
  rw [hv, convert_ofBits, hval, CInt.val_ofBits]
  simp only [CType.read_inj]

/-- A division in a type, by its operands in that type. -/
theorem CBinary.apply_div (hc : t.common t = t) (a b : BitVec t.width) :
    div.apply (.ofBits t a) (.ofBits t b) =
      if t.read b = 0 then none else CInt.checked t ((t.read a).tdiv (t.read b)) := by
  unfold CBinary.apply
  dsimp only [ty_ofBits]
  rw [hc, convert_ofBits, convert_ofBits, CInt.val_ofBits, CInt.val_ofBits]

theorem CBinary.apply_mod (hc : t.common t = t) (a b : BitVec t.width) :
    mod.apply (.ofBits t a) (.ofBits t b) =
      if t.read b = 0 then none
      else (CInt.checked t ((t.read a).tdiv (t.read b))).bind fun _ =>
        CInt.checked t ((t.read a).tmod (t.read b)) := by
  unfold CBinary.apply
  dsimp only [ty_ofBits]
  rw [hc, convert_ofBits, convert_ofBits, CInt.val_ofBits, CInt.val_ofBits]

theorem CType.read_ne_zero {b : BitVec t.width} (hb : b ≠ 0) : t.read b ≠ 0 := by
  have hzero : t.read 0 = 0 := by cases t <;> rfl
  rwa [← hzero, Ne, CType.read_inj]

section Signed

variable {a b : BitVec t.width}

variable (ht : t.signed = true)
include ht

/-- The most negative value divided by minus one is the only quotient out of range. -/
theorem CInt.checked_tdiv
    (hab : a ≠ intMin t.width ∨ b ≠ -1#t.width) :
    checked t ((t.read a).tdiv (t.read b)) = some (ofBits t (a.sdiv b)) := by
  have hread : ∀ x : BitVec t.width, t.read x = x.toInt := fun x => if_pos ht
  rw [hread, hread, ← toInt_sdiv_of_ne_or_ne a b hab, ← hread, checked_read]

theorem CBinary.apply_div_signed (hc : t.common t = t) (hb : b ≠ 0)
    (hab : a ≠ intMin t.width ∨ b ≠ -1#t.width) :
    div.apply (.ofBits t a) (.ofBits t b) = some (.ofBits t (a.sdiv b)) := by
  rw [apply_div hc, if_neg (CType.read_ne_zero hb), checked_tdiv ht hab]

theorem CBinary.apply_mod_signed (hc : t.common t = t) (hb : b ≠ 0)
    (hab : a ≠ intMin t.width ∨ b ≠ -1#t.width) :
    mod.apply (.ofBits t a) (.ofBits t b) = some (.ofBits t (a.srem b)) := by
  have hread : ∀ x : BitVec t.width, t.read x = x.toInt := fun x => if_pos ht
  rw [apply_mod hc, if_neg (CType.read_ne_zero hb), checked_tdiv ht hab, Option.bind_some,
    hread, hread, ← toInt_srem, ← hread, CInt.checked_read]

end Signed

section Unsigned

variable {a b : BitVec t.width}

variable (ht : t.signed = false)
include ht

theorem CInt.checked_udiv :
    checked t ((t.read a).tdiv (t.read b)) = some (ofBits t (a / b)) := by
  have hread : ∀ x : BitVec t.width, t.read x = x.toNat := fun x => if_neg (by rw [ht]; simp)
  rw [hread, hread, ← Int.ofNat_tdiv, ← toNat_udiv, ← hread, checked_read]

theorem CBinary.apply_div_unsigned (hc : t.common t = t) (hb : b ≠ 0) :
    div.apply (.ofBits t a) (.ofBits t b) = some (.ofBits t (a / b)) := by
  rw [apply_div hc, if_neg (CType.read_ne_zero hb), checked_udiv ht]

theorem CBinary.apply_mod_unsigned (hc : t.common t = t) (hb : b ≠ 0) :
    mod.apply (.ofBits t a) (.ofBits t b) = some (.ofBits t (a % b)) := by
  have hread : ∀ x : BitVec t.width, t.read x = x.toNat := fun x => if_neg (by rw [ht]; simp)
  rw [apply_mod hc, if_neg (CType.read_ne_zero hb), checked_udiv ht, Option.bind_some, hread,
    hread, ← Int.ofNat_tmod, ← toNat_umod, ← hread, CInt.checked_read]

end Unsigned

theorem CType.width_pos (t : CType) : 0 < t.width := by cases t <;> decide

/-- A signed type holds the numbers of smaller magnitude than its most negative one. -/
theorem CType.wrap_of_abs_lt (ht : t.signed = true) {n : ℤ} (h : |n| < 2 ^ (t.width - 1)) :
    t.wrap n = n := by
  obtain ⟨hlo, hhi⟩ := abs_lt.1 h
  rw [CType.wrap, CType.read, if_pos ht, toInt_ofInt_eq_self t.width_pos hlo.le hhi]

/-- A wider type that keeps the sign holds the values of a type. -/
theorem CType.wrap_read_of_lt {s : CType} (hw : s.width < t.width)
    (hs : s.signed = true → t.signed = true) (b : BitVec s.width) :
    t.wrap (s.read b) = s.read b := by
  by_cases hsigned : s.signed = true
  · rw [CType.wrap, CType.read, if_pos (hs hsigned), CType.read, if_pos hsigned]
    exact toInt_signExtend_of_le hw.le
  · have hlt : 2 * b.toNat < 2 ^ t.width := by
      have := Nat.pow_le_pow_right (n := 2) (by decide) hw
      omega
    rw [CType.read, if_neg hsigned]
    cases ht : t.signed with
    | true => exact CType.wrap_natCast_of_signed ht hlt
    | false => exact CType.wrap_natCast ht (by omega)

/-- A conversion to a type that holds the value. -/
theorem CInt.convert_eq {v : CInt} (h : t.wrap v.val = v.val) : v.convert t = ⟨t, v.val, h⟩ := by
  simp only [convert, ofInt, h]

/-- A product that is in range. -/
theorem CBinary.apply_mul {x y : ℤ} (hx : t.wrap x = x) (hy : t.wrap y = y) (hc : t.common t = t)
    (hfits : t.wrap (x * y) = x * y) :
    mul.apply ⟨t, x, hx⟩ ⟨t, y, hy⟩ = some ⟨t, x * y, hfits⟩ := by
  unfold CBinary.apply
  dsimp only
  rw [hc, convert_eq hx, convert_eq hy]
  exact dif_pos hfits

/-- A right shift rounds down. -/
theorem CBinary.apply_shr {v r : CInt} (hp : v.ty.promote = v.ty) {k : ℕ} (hr : r.val = k)
    (hk : k < v.ty.width) : shr.apply v r = some (.ofInt v.ty (v.val / 2 ^ k)) := by
  have hrange : 0 ≤ r.val ∧ r.val < (v.ty.width : ℤ) := by rw [hr]; omega
  change shift false v r = _
  unfold shift
  rw [hp, if_pos hrange, if_neg Bool.false_ne_true, hr, Int.toNat_natCast]

end Rules

/-! ## Bit networks -/

/-- Types that operands keep, without overflow. -/
def CType.Modular (t : CType) : Prop := t.promote = t ∧ t.signed = false

theorem CType.Modular.common {t : CType} (h : t.Modular) : t.common t = t := by
  obtain ⟨hp, hs⟩ := h
  cases t <;> simp_all [CType.promote, CType.common]

/-- A left shift in an unsigned type drops the high bits. -/
theorem CBinary.apply_shl_ofBits {t : CType} (ht : t.Modular) (x : BitVec t.width) {r : CInt}
    {k : ℕ}
    (hr : r.val = k) (hk : k < t.width) :
    shl.apply (.ofBits t x) r = some (.ofBits t (x <<< k)) := by
  have hval : (CInt.ofBits t x).val = (x.toNat : ℤ) := by
    rw [CInt.val_ofBits, CType.read, ht.2]
    rfl
  have hrange : 0 ≤ r.val ∧ r.val < (t.width : ℤ) := by rw [hr]; omega
  have hsigned : ¬ (t.signed = true ∧ (x.toNat : ℤ) < 0) := by rw [ht.2]; simp
  change shift true (.ofBits t x) r = _
  unfold shift
  dsimp only [ty_ofBits]
  rw [ht.1, if_pos hrange, if_pos rfl, hval, if_neg hsigned, hr, Int.toNat_natCast,
    checked_of_unsigned ht.2]
  congr 2
  apply eq_of_toNat_eq
  rw [toNat_shiftLeft, Nat.shiftLeft_eq,
    show ((x.toNat : ℤ) * 2 ^ k) = ((x.toNat * 2 ^ k : ℕ) : ℤ) by push_cast; rfl,
    ofInt_natCast, toNat_ofNat]

theorem CBinary.apply_bor {t : CType} {l r : CInt} (h : l.ty.common r.ty = t) :
    bor.apply l r = some (.ofBits t (l.bits t ||| r.bits t)) := by
  subst h
  exact congrArg some (CInt.ofInt_read _ _)

/-- Expressions of `|`, constant masks and constant shifts over the variables in scope. -/
def CExpr.network (t : CType) (scope : List String) : CExpr → Bool
  | .place ⟨x, []⟩ => x ∈ scope
  | .binary .bor l r => l.network t scope && r.network t scope
  | .binary .band l (.lit c) => l.network t scope && decide (c.ty = t)
  | .binary .shl l (.lit k) => l.network t scope && decide (0 ≤ k.val ∧ k.val < t.width)
  | .binary .shr l (.lit k) => l.network t scope && decide (0 ≤ k.val ∧ k.val < t.width)
  | _ => false

/-- Bodies of declarations and assignments of such expressions that return one. -/
def CStmt.network (t : CType) : List String → List CStmt → Bool
  | scope, .declare u x e :: rest => u = t && e.network t scope && network t (x :: scope) rest
  | scope, .assign x e :: rest => x ∈ scope && e.network t scope && network t scope rest
  | scope, .ret e :: _ => e.network t scope
  | _, _ => false

/-- The variables in scope distribute over the bits of a word that the environment depends on. -/
def Env.Linear {w : ℕ} (t : CType) (scope : List String) (env : BitVec w → Env) : Prop :=
  ∀ x ∈ scope, ∃ g : BitVec w → BitVec t.width, OrLinear g ∧
    ∀ b, (env b).vars ⟨x, []⟩ = some (.int (.ofBits t (g b)))

section Network

variable {w : ℕ} {t : CType} {scope : List String} {env : BitVec w → Env}

theorem Env.Linear.set (h : Env.Linear t scope env) (x : String) {g : BitVec w → BitVec t.width}
    (hg : OrLinear g) : Env.Linear t (x :: scope) fun b => (env b).set x (.ofBits t (g b)) := by
  intro y hy
  by_cases hyx : y = x
  · subst hyx
    exact ⟨g, hg, fun b => Env.vars_set_self _ _ _⟩
  · obtain ⟨gy, hgy, hval⟩ := h y ((List.mem_cons.1 hy).resolve_left hyx)
    exact ⟨gy, hgy, fun b => (Env.vars_set_of_ne _ hyx _).trans (hval b)⟩

theorem Env.Linear.mono {scope' : List String} (h : Env.Linear t scope env)
    (hsub : scope' ⊆ scope) : Env.Linear t scope' env := fun x hx => h x (hsub hx)

/-- The value of an expression of a network distributes over the bits of the word. -/
theorem CExpr.eval_network (ht : t.Modular) (henv : Env.Linear t scope env) (e : CExpr)
    (he : e.network t scope = true) : ∃ g : BitVec w → BitVec t.width, OrLinear g ∧
      ∀ b, e.eval (env b) = some (.ofBits t (g b)) := by
  have hcommon := ht.common
  fun_induction CExpr.network t scope e with
  | case1 x =>
    obtain ⟨g, hg, hval⟩ := henv x (of_decide_eq_true he)
    exact ⟨g, hg, fun b => CExpr.eval_var (hval b)⟩
  | case2 l r ihl ihr =>
    obtain ⟨hl, hr⟩ := Bool.and_eq_true_iff.1 he
    obtain ⟨gl, hgl, hvl⟩ := ihl hl
    obtain ⟨gr, hgr, hvr⟩ := ihr hr
    refine ⟨fun b => gl b ||| gr b, hgl.union hgr, fun b => ?_⟩
    rw [CExpr.eval_binary (hvl b) (hvr b), apply_bor hcommon, bits_ofBits,
      bits_ofBits]
  | case3 l c ih =>
    obtain ⟨hl, hc⟩ := Bool.and_eq_true_iff.1 he
    obtain ⟨g, hg, hval⟩ := ih hl
    refine ⟨fun b => g b &&& c.bits t, (OrLinear.and _).comp hg, fun b => ?_⟩
    have hty : (CInt.ofBits t (g b)).ty.common c.ty = t := by
      rw [of_decide_eq_true hc]
      exact hcommon
    rw [CExpr.eval_binary (hval b) (by rw [CExpr.eval]), apply_band hty, bits_ofBits]
  | case4 l k ih =>
    obtain ⟨hl, hk⟩ := Bool.and_eq_true_iff.1 he
    obtain ⟨g, hg, hval⟩ := ih hl
    obtain ⟨hpos, hlt⟩ := of_decide_eq_true hk
    refine ⟨fun b => g b <<< k.val.toNat, (OrLinear.shiftLeft _).comp hg, fun b => ?_⟩
    rw [CExpr.eval_binary (hval b) (by rw [CExpr.eval]),
      apply_shl_ofBits ht _ (Int.toNat_of_nonneg hpos).symm (by omega)]
  | case5 l k ih =>
    obtain ⟨hl, hk⟩ := Bool.and_eq_true_iff.1 he
    obtain ⟨g, hg, hval⟩ := ih hl
    obtain ⟨hpos, hlt⟩ := of_decide_eq_true hk
    refine ⟨fun b => g b >>> k.val.toNat, (OrLinear.ushiftRight _).comp hg, fun b => ?_⟩
    rw [CExpr.eval_binary (hval b) (by rw [CExpr.eval]),
      apply_shr_ofBits _ ht.1 ht.2 (Int.toNat_of_nonneg hpos).symm (by omega)]
  | case6 => cases he

/-- What a network returns distributes over the bits of the word. -/
theorem CStmt.exec_network (ht : t.Modular) (henv : Env.Linear t scope env) (body : List CStmt)
    (hbody : CStmt.network t scope body = true) : ∃ g : BitVec w → BitVec t.width, OrLinear g ∧
      ∀ b, CStmt.exec (env b) body = some (.ofBits t (g b)) := by
  fun_induction CStmt.network t scope body generalizing env with
  | case1 scope u x e rest ih =>
    simp only [Bool.and_eq_true, decide_eq_true_eq] at hbody
    obtain ⟨⟨rfl, he⟩, hrest⟩ := hbody
    obtain ⟨g, hg, hval⟩ := CExpr.eval_network ht henv e he
    obtain ⟨gr, hgr, hret⟩ := ih (henv.set x hg) hrest
    refine ⟨gr, hgr, fun b => ?_⟩
    rw [CStmt.exec, hval b, Option.bind_some, convert_ofBits, hret b]
  | case2 scope x e rest ih =>
    simp only [Bool.and_eq_true, decide_eq_true_eq] at hbody
    obtain ⟨⟨hx, he⟩, hrest⟩ := hbody
    obtain ⟨g, hg, hval⟩ := CExpr.eval_network ht henv e he
    obtain ⟨gx, -, hold⟩ := henv x hx
    have hset := (henv.set x hg).mono (List.subset_cons_self x scope)
    obtain ⟨gr, hgr, hret⟩ := ih hset hrest
    refine ⟨gr, hgr, fun b => ?_⟩
    rw [CStmt.exec, hold b]
    dsimp only
    rw [hval b, Option.bind_some, ty_ofBits, convert_ofBits, hret b]
  | case3 scope e rest =>
    obtain ⟨g, hg, hval⟩ := CExpr.eval_network ht henv e hbody
    exact ⟨g, hg, fun b => by rw [CStmt.exec, hval b]⟩
  | case4 => cases hbody

/-- A network of one parameter computes a function that distributes over bits, once it does on
single bits. -/
theorem CDef.call_network (ht : t.Modular) {x : String} {body : List CStmt}
    (hbody : CStmt.network t [x] body = true) {g : BitVec t.width → BitVec t.width}
    (hg : OrLinear g)
    (hbit : ∀ i < t.width, CDef.call ⟨t, [(t, x)], body⟩ [.ofBits t (.twoPow _ i)] =
      some (.ofBits t (g (.twoPow _ i)))) (b : BitVec t.width) :
    CDef.call ⟨t, [(t, x)], body⟩ [.ofBits t b] = some (.ofBits t (g b)) := by
  have henv : Env.Linear t [x] fun b : BitVec t.width =>
      Env.set ⟨fun _ => none, fun _ => none⟩ x (.ofBits t b) :=
    Env.Linear.set (fun y hy => absurd hy List.not_mem_nil) x OrLinear.id
  obtain ⟨f, hf, hret⟩ := CStmt.exec_network ht henv body hbody
  have hcall : ∀ b, CDef.call ⟨t, [(t, x)], body⟩ [.ofBits t b] = some (.ofBits t (f b)) := by
    intro b
    simp only [CDef.call, Env.ofArgs, Option.map_some, Option.bind_some, convert_ofBits, hret b]
  rw [hcall b, hf.ext hg fun i hi => ?_]
  have hi := (hcall _).symm.trans (hbit i hi)
  rw [← bits_ofBits t (f _), Option.some.inj hi, bits_ofBits]

end Network

end CLang
