import Waste.Exec.Integer
import Waste.Lib.CInt

/-!
# The integer opcodes

The C expressions of the `i32` and `i64` rows of `op/opcodes.tab`, in the functions that
`gen-dispatch.awk` writes around them, and the numerics of the WebAssembly specification.
No expression has undefined behaviour, and each gives the result of the specification, as
the handlers do (`integer_opcodes`).
-/

namespace Waste.Exec

open Waste.CInt BitVec Nat

variable {k : Nat}

/-- The `i32` and `i64` rows. -/
inductive IntegerOp
  | eqz (w : Width)
  | rel (w : Width) (op : RelOp)
  | un (w : Width) (op : UnOp)
  | bin (w : Width) (op : BinOp)
  | extend32
  | wrap
  | extend (signed : Bool)

/-- The instruction of a row. -/
def IntegerOp.op : IntegerOp → Op
  | eqz w => .eqz w
  | rel w op => .rel w op
  | un w op => .un w op
  | bin w op => .bin w op
  | extend32 => .i64Extend32
  | wrap => .i32WrapI64
  | extend signed => .i64ExtendI32 signed

/-- The operands that a row pops, the right one first. -/
def IntegerOp.popped (left right : Value) : IntegerOp → List Value
  | rel .. | bin .. => [right, left]
  | _ => [right]

/-! ## The rows -/

/-- The operand of a row, as an unsigned integer. -/
def Width.operand (w : Width) (value : Value) : Val (uint w.bits) := ⟨w.get value⟩

/-- `b & 31u` or `b & 63u`. -/
def Width.count (w : Width) (b : Val (uint w.bits)) : Val (uint w.bits) :=
  b.and ((lit (w.bits - 1)).cast (uint w.bits))

def RelOp.row (w : Width) (a b : Val (uint w.bits)) : RelOp → Val (int 32)
  | eq => a.eq b
  | ne => a.ne b
  | ltS => (a.cast (int w.bits)).lt (b.cast (int w.bits))
  | ltU => a.lt b
  | gtS => (b.cast (int w.bits)).lt (a.cast (int w.bits))
  | gtU => b.lt a
  | leS => (a.cast (int w.bits)).le (b.cast (int w.bits))
  | leU => a.le b
  | geS => (b.cast (int w.bits)).le (a.cast (int w.bits))
  | geU => b.le a

def UnOp.row (w : Width) (b : Val (uint w.bits)) : UnOp → Option (Val (uint w.bits))
  | clz => b.cond (b.clz.map (·.cast _)) (some ((lit w.bits).cast _))
  | ctz => b.cond (b.ctz.map (·.cast _)) (some ((lit w.bits).cast _))
  | popcnt => some (b.popcount.cast _)
  | extend8 => some (((b.cast (int 8)).cast (int w.bits)).cast _)
  | extend16 => some (((b.cast (int 16)).cast (int w.bits)).cast _)

/-- `emit_i32_div_s` and its siblings, `gen_rotl32` and `emit_i64_rot` among the rows. -/
def BinOp.row (w : Width) (a b : Val (uint w.bits)) :
    BinOp → Option (Except Fault (Val (uint w.bits)))
  | add => (a.add b).map .ok
  | sub => (a.sub b).map .ok
  | mul => (a.mul b).map .ok
  | divS =>
    if b.toInt = 0 then some (.error (.trap "integer divide by zero"))
    else if a.bits = BitVec.intMin w.bits ∧ b.bits = BitVec.allOnes w.bits then
      some (.error (.trap "integer overflow"))
    else ((a.cast (int w.bits)).div (b.cast (int w.bits))).map fun x => .ok (x.cast _)
  | divU =>
    if b.toInt = 0 then some (.error (.trap "integer divide by zero"))
    else (a.div b).map .ok
  | remS =>
    if b.toInt = 0 then some (.error (.trap "integer divide by zero"))
    else if a.bits = BitVec.intMin w.bits ∧ b.bits = BitVec.allOnes w.bits then some (.ok ⟨0⟩)
    else ((a.cast (int w.bits)).rem (b.cast (int w.bits))).map fun x => .ok (x.cast _)
  | remU =>
    if b.toInt = 0 then some (.error (.trap "integer divide by zero"))
    else (a.rem b).map .ok
  | and => some (.ok (a.and b))
  | or => some (.ok (a.or b))
  | xor => some (.ok (a.xor b))
  | shl => (a.shl (w.count b)).map .ok
  | shrS => ((a.cast (int w.bits)).shr (w.count b)).map fun x => .ok (x.cast _)
  | shrU => (a.shr (w.count b)).map .ok
  | rotl => do
    let c := (w.count b).cast (uint 32)
    let left := do return (← a.shl c).or (← a.shr (← (lit w.bits).sub c))
    return .ok (← c.cond left (some a))
  | rotr => do
    let c := (w.count b).cast (uint 32)
    let right := do return (← a.shr c).or (← a.shl (← (lit w.bits).sub c))
    return .ok (← c.cond right (some a))

/-- What the function of a row pushes, from its operands, the right one on top. -/
def IntegerOp.generated (left right : Value) : IntegerOp → Option (Except Fault Value)
  | eqz w =>
    let zero : Val (int 32) := ⟨0⟩
    some (.ok (i32Value (((w.operand right).eq (zero.cast _)).cast (uint 32)).bits))
  | rel w op =>
    some (.ok (i32Value ((op.row w (w.operand left) (w.operand right)).cast (uint 32)).bits))
  | un w op => (op.row w (w.operand right)).map fun x => .ok (w.value x.bits)
  | bin w op =>
    (op.row w (w.operand left) (w.operand right)).map fun x => x.map fun x => w.value x.bits
  | extend32 =>
    let b : Val (uint 64) := ⟨right.i64⟩
    some (.ok (i64Value (((b.cast (int 32)).cast (int 64)).cast (uint 64)).bits))
  | wrap =>
    let v : Val (int 64) := ⟨right.i64⟩
    some (.ok (i32Value (v.cast (int 32)).bits))
  | extend signed =>
    let v : Val (int 32) := ⟨right.i32⟩
    let out := if signed then v.cast (int 64) else (v.cast (uint 32)).cast (int 64)
    some (.ok (i64Value out.bits))

/-! ## The specification -/

section Spec

variable {n : Nat} (a b : BitVec n)

def RelOp.spec : RelOp → Bool
  | eq => a.toNat = b.toNat
  | ne => a.toNat ≠ b.toNat
  | ltS => a.toInt < b.toInt
  | ltU => a.toNat < b.toNat
  | gtS => b.toInt < a.toInt
  | gtU => b.toNat < a.toNat
  | leS => a.toInt ≤ b.toInt
  | leU => a.toNat ≤ b.toNat
  | geS => b.toInt ≤ a.toInt
  | geU => b.toNat ≤ a.toNat

/-- The counts of zeros are the places of the first bit that is set, or `n`. -/
def UnOp.spec : UnOp → BitVec n
  | clz => .ofNat n ((List.range n).findIdx fun i => b.toNat.testBit (n - 1 - i))
  | ctz => .ofNat n ((List.range n).findIdx fun i => b.toNat.testBit i)
  | popcnt => .ofNat n ((List.range n).countP fun i => b.toNat.testBit i)
  | extend8 => .ofInt n (BitVec.ofNat 8 b.toNat).toInt
  | extend16 => .ofInt n (BitVec.ofNat 16 b.toNat).toInt

def BinOp.spec : BinOp → BitVec n
  | add => .ofNat n (a.toNat + b.toNat)
  | sub => .ofInt n (a.toNat - b.toNat)
  | mul => .ofNat n (a.toNat * b.toNat)
  | divS => .ofInt n (a.toInt.tdiv b.toInt)
  | divU => .ofNat n (a.toNat / b.toNat)
  | remS => .ofInt n (a.toInt.tmod b.toInt)
  | remU => .ofNat n (a.toNat % b.toNat)
  | and => a &&& b
  | or => a ||| b
  | xor => a ^^^ b
  | shl => .ofNat n (a.toNat * 2 ^ (b.toNat % n))
  | shrS => .ofInt n (a.toInt / 2 ^ (b.toNat % n))
  | shrU => .ofNat n (a.toNat / 2 ^ (b.toNat % n))
  | rotl => a.rotateLeft b.toNat
  | rotr => a.rotateRight b.toNat

def BinOp.trap? : BinOp → Option String
  | divS =>
    if b.toNat = 0 then some "integer divide by zero"
    else if a.toInt = -2 ^ (n - 1) ∧ b.toInt = -1 then some "integer overflow" else none
  | divU | remS | remU => if b.toNat = 0 then some "integer divide by zero" else none
  | _ => none

end Spec

/-- The result of the specification. -/
def IntegerOp.spec (left right : Value) : IntegerOp → Except Fault Value
  | eqz w => .ok (i32Value (if (w.get right).toNat = 0 then 1 else 0))
  | rel w op => .ok (i32Value (if op.spec (w.get left) (w.get right) then 1 else 0))
  | un w op => .ok (w.value (op.spec (w.get right)))
  | bin w op =>
    match op.trap? (w.get left) (w.get right) with
    | some message => .error (.trap message)
    | none => .ok (w.value (op.spec (w.get left) (w.get right)))
  | extend32 => .ok (i64Value (.ofInt 64 (BitVec.ofNat 32 right.i64.toNat).toInt))
  | wrap => .ok (i32Value (.ofNat 32 right.i64.toNat))
  | extend signed =>
    .ok (i64Value (if signed then .ofInt 64 right.i32.toInt else .ofNat 64 right.i32.toNat))

/-! ## The rows and the handlers -/

section Rows

variable (w : Width) (a b : BitVec w.bits)
variable {c : BitVec w.bits}

theorem Width.bits_le : 0 < w.bits ∧ w.bits ≤ 64 := by cases w <;> decide

theorem Width.toInt_count : (w.count ⟨b⟩).toInt = (b.toNat % w.bits : Nat) := by
  apply congrArg Nat.cast
  cases w with
  | i32 => exact and_two_pow_sub_one_eq_mod b.toNat 5
  | i64 => exact and_two_pow_sub_one_eq_mod b.toNat 6

theorem toInt_ofNat32 (hk : k ≤ 64) : Val.toInt (⟨.ofInt 32 k⟩ : Val (uint 32)) = k := by
  rw [Val.toInt_uint, ofInt_natCast, toNat_ofNat, mod_eq_of_lt (by omega)]

theorem Width.toInt_rotation (hk : k = b.toNat % w.bits) :
    ((w.count ⟨b⟩).cast (uint 32)).toInt = k ∧
      ∃ d, (lit w.bits).sub ((w.count ⟨b⟩).cast (uint 32)) = some d ∧
        d.toInt = (w.bits - k : Nat) := by
  obtain ⟨hpos, hle⟩ := w.bits_le
  have hlt := mod_lt b.toNat hpos
  have hcount : ((w.count ⟨b⟩).cast (uint 32)).toInt = k := by
    rw [Val.cast, w.toInt_count, ← hk]
    exact toInt_ofNat32 (by omega)
  refine ⟨hcount, _, rfl, ?_⟩
  have hlit : (lit w.bits).toInt = w.bits := by cases w <;> rfl
  have hrest : (w.bits : Int) - k = (w.bits - k : Nat) := by omega
  rw [hcount, hlit, hrest]
  exact toInt_ofNat32 (by omega)

theorem Width.cast_count (hc : c.toNat ≤ w.bits) :
    Val.cast (⟨c.setWidth 32⟩ : Val (int 32)) (uint w.bits) = ⟨c⟩ := by
  obtain ⟨-, hle⟩ := w.bits_le
  have hsmall : (c.setWidth 32).toNat = c.toNat := by
    rw [toNat_setWidth, mod_eq_of_lt (by omega)]
  have hmsb : (c.setWidth 32).msb = false := by
    rw [msb_eq_decide, hsmall]
    simp; omega
  rw [Val.cast_int, signExtend_eq_setWidth_of_msb_false hmsb]
  congr 1
  apply eq_of_toNat_eq
  rw [toNat_setWidth, hsmall, mod_eq_of_lt c.isLt]

theorem Width.cond_count (hc : c.toNat ≤ w.bits)
    (hzero : b = 0 → c = .ofNat w.bits w.bits) {x : Option (Val (int 32))}
    (hx : x = if b = 0 then none else some ⟨c.setWidth 32⟩) :
    Val.cond (⟨b⟩ : Val (uint w.bits)) (x.map (·.cast (uint w.bits)))
      (some ((lit w.bits).cast _)) = some ⟨c⟩ := by
  subst hx
  by_cases hb : b = 0
  · rw [hzero hb, hb]
    cases w <;> rfl
  · have hne : Val.toInt (⟨b⟩ : Val (uint w.bits)) ≠ 0 := by simpa [toNat_eq] using hb
    rw [Val.cond, if_pos hne, if_neg hb]
    exact congrArg some (w.cast_count hc)

theorem toNat_clz_le {n : Nat} {b : BitVec n} : b.clz.toNat ≤ n := by
  simpa [le_def] using b.clz_le

theorem UnOp.row_eval (op : UnOp) : op.row w ⟨b⟩ = some ⟨op.eval b⟩ := by
  cases op with
  | clz => exact w.cond_count b toNat_clz_le clz_eq_iff_eq_zero.2 rfl
  | ctz =>
    have hzero (hb : b = 0) : b.ctz = .ofNat w.bits w.bits :=
      clz_eq_iff_eq_zero.2 (reverse_eq_zero_iff.2 hb)
    exact w.cond_count b toNat_clz_le hzero rfl
  | popcnt => exact congrArg some (w.cast_count b.toNat_cpop_le)
  | extend8 | extend16 => simp [row, eval]

theorem RelOp.row_eval (op : RelOp) : op.row w ⟨a⟩ ⟨b⟩ = .truth (op.eval a b) := by
  cases op with
  | eq => simp [row, eval, Val.eq, toNat_inj, beq_eq_decide]
  | ne => simp [row, eval, Val.ne, toNat_inj, bne, beq_eq_decide]
  | ltU | gtU => simp [row, eval, Val.lt, BitVec.ult]
  | leU | geU => simp [row, eval, Val.le, BitVec.ule]
  | ltS | gtS => simp [row, eval, Val.lt, BitVec.slt]
  | leS | geS => simp [row, eval, Val.le, BitVec.sle]

theorem BinOp.row_eval (op : BinOp) : op.row w ⟨a⟩ ⟨b⟩ = some ((op.eval a b).map Val.mk) := by
  have hcount := w.toInt_count b
  obtain ⟨hrot, rest, hsub, hrest⟩ := w.toInt_rotation b rfl
  have hlt : b.toNat % w.bits < w.bits := mod_lt _ w.bits_le.1
  have hzero : (Val.toInt (⟨b⟩ : Val (uint w.bits)) = 0) = (b = 0) := by simp [toNat_eq]
  cases op with
  | add | sub | mul => simp [row, eval, Except.map]
  | divS | remS =>
    simp only [row, eval, hzero]
    split_ifs with hb hover
    · rfl
    · rfl
    · simp [Val.div_int hb hover, Val.rem_int hb hover, Except.map]
  | divU | remU =>
    simp only [row, eval, hzero]
    split_ifs with hb
    · rfl
    · simp [Val.div_uint a hb, Val.rem_uint a hb, Except.map]
  | and | or | xor => rfl
  | shl => simp [row, eval, Val.shl_uint a hcount hlt, Except.map]
  | shrS => simp [row, eval, Val.shr_int a hcount hlt, Except.map]
  | shrU => simp [row, eval, Val.shr_uint a hcount hlt, Except.map]
  | rotl | rotr =>
    simp only [row, eval, rotateLeft, rotateRight, Val.cond, hrot, hsub]
    generalize b.toNat % w.bits = k at hrot hrest hlt
    by_cases hk : k = 0
    · simp [hk, Except.map]
    · have hlt' : w.bits - k < w.bits := by omega
      simp [hk, Val.shl_uint a hrot hlt, Val.shr_uint a hrest hlt', Val.shr_uint a hrot hlt,
        Val.shl_uint a hrest hlt', Val.or, Except.map]

end Rows

/-! ## The handlers and the specification -/

section Numerics

variable {n : Nat} (a b : BitVec n)

theorem ne_zero_of_clz_lt (h : b.clz.toNat < n) : b ≠ 0#n := by
  rw [← clz_lt_iff_ne_zero, lt_def]
  simpa using h

theorem findIdx_range {p : Nat → Bool} (hk : k ≤ n) (htrue : k < n → p k = true)
    (hfalse : ∀ i < k, p i = false) : (List.range n).findIdx p = k := by
  rcases Nat.lt_or_eq_of_le hk with hlt | rfl
  · rw [List.findIdx_eq (by simpa using hlt)]
    simpa [htrue hlt] using hfalse
  · have hall : (List.range k).findIdx p = (List.range k).length := by
      rw [List.findIdx_eq_length]
      simpa using hfalse
    simpa using hall

theorem cpopNatRec_eq_countP (m acc : Nat) :
    b.cpopNatRec m acc = acc + (List.range m).countP fun i => b.toNat.testBit i := by
  induction m generalizing acc with
  | zero => rfl
  | succ m ih =>
    rw [cpopNatRec_succ, ih, List.range_succ, List.countP_append, List.countP_singleton]
    show acc + (b.toNat.testBit m).toNat + _ = _
    cases b.toNat.testBit m <;> simp; omega

theorem UnOp.eval_spec (op : UnOp) : op.eval b = op.spec b := by
  cases op with
  | clz =>
    have hfirst : (List.range n).findIdx (fun i => b.toNat.testBit (n - 1 - i)) = b.clz.toNat := by
      apply findIdx_range toNat_clz_le
      · intro hlt
        exact getLsbD_true_clz_of_ne_zero (by omega) (ne_zero_of_clz_lt b hlt)
      · intro i hi
        apply testBit_lt_two_pow
        refine Nat.lt_of_lt_of_le toNat_lt_two_pow_sub_clz ?_
        exact Nat.pow_le_pow_right (by omega) (by omega)
    simp [eval, spec, hfirst]
  | ctz =>
    have hfirst : (List.range n).findIdx b.toNat.testBit = b.ctz.toNat := by
      apply findIdx_range toNat_clz_le
      · intro hlt
        apply getLsbD_true_ctz_of_ne_zero
        exact mt reverse_eq_zero_iff.2 (ne_zero_of_clz_lt b.reverse hlt)
      · exact fun i => getLsbD_false_of_lt_ctz
    simp [eval, spec, hfirst]
  | popcnt =>
    show BitVec.ofNat n _ = .ofNat n _
    rw [cpopNatRec_eq_countP, Nat.zero_add]
  | extend8 | extend16 => simp [eval, spec, signExtend]

theorem RelOp.eval_spec (op : RelOp) : op.eval a b = op.spec a b := by
  cases op with
  | eq => simp [eval, spec, toNat_inj, beq_eq_decide]
  | ne => simp [eval, spec, toNat_inj, bne, beq_eq_decide]
  | _ => rfl

theorem overflow_iff (hn : 0 < n) :
    (a = intMin n ∧ b = allOnes n) ↔ a.toInt = -2 ^ (n - 1) ∧ b.toInt = -1 := by
  rw [← toInt_inj, ← toInt_inj, toInt_intMin_of_pos hn, toInt_allOnes, if_pos hn]

theorem BinOp.eval_spec (hn : 0 < n) (op : BinOp) : op.eval a b = match op.trap? a b with
      | some message => .error (.trap message)
      | none => .ok (op.spec a b) := by
  have hzero : (b.toNat = 0) = (b = 0) := by simp [toNat_eq]
  have hsrem : a.srem b = .ofInt n (a.toInt.tmod b.toInt) := by
    rw [← toInt_srem, ofInt_toInt]
  cases op with
  | sub =>
    simp [eval, trap?, spec, Int.sub_eq_add_neg, ofInt_add, ofInt_neg, sub_eq_add_neg]
  | divS =>
    simp only [eval, trap?, spec, hzero, overflow_iff a b hn]
    split_ifs
    · rfl
    · rfl
    · apply congrArg
      apply eq_of_toInt_eq
      rw [toInt_sdiv, toInt_ofInt]
  | remS =>
    simp only [eval, trap?, spec, hzero, overflow_iff a b hn, ← hsrem]
    split_ifs with hb hover
    · rfl
    · rw [hsrem, hover.2]
      simp
    · rfl
  | divU =>
    simp only [eval, trap?, spec, hzero, ← udiv_def]
    split_ifs <;> rfl
  | remU =>
    simp only [eval, trap?, spec, hzero, ← umod_def]
    split_ifs <;> rfl
  | add | mul | and | or | xor => rfl
  | shl =>
    simp only [eval, trap?, spec, ← Nat.shiftLeft_eq]
    rfl
  | shrU =>
    simp only [eval, trap?, spec, ← shiftRight_eq_div_pow, ← toNat_ushiftRight,
      ofNat_toNat, setWidth_eq]
  | shrS =>
    have hshift : a.toInt / 2 ^ (b.toNat % n) = a.toInt >>> (b.toNat % n) := by
      rw [Int.shiftRight_eq_div_pow]
      rfl
    simp only [eval, trap?, spec, hshift]
    rfl
  | rotl | rotr =>
    simp only [eval, trap?, spec, rotateLeft, rotateRight, rotateLeft_def, rotateRight_def]
    by_cases hk : b.toNat % n = 0
    · simp [hk, ushiftRight_eq_zero (Nat.le_refl n)]
    · simp [hk]

end Numerics

section Results

variable (left right : Value)

theorem truth_bits (p : Bool) : ((Val.truth p).cast (uint 32)).bits = if p then 1 else 0 := by
  cases p <;> rfl

theorem ofBool_bits (p : Bool) : (ofBool p).setWidth 32 = if p then 1 else 0 := by
  cases p <;> rfl

theorem IntegerOp.generated_eq (op : IntegerOp) :
    op.generated left right = some (op.spec left right) := by
  cases op with
  | eqz w =>
    have hzero : (Val.cast (⟨0⟩ : Val (int 32)) (uint w.bits)).toInt = 0 := by cases w <;> rfl
    simp only [generated, spec, Val.eq, truth_bits, hzero]
    simp [Width.operand]
  | rel w op =>
    simp only [generated, spec, Width.operand, RelOp.row_eval, RelOp.eval_spec, truth_bits]
  | un w op => simp only [generated, spec, Width.operand, UnOp.row_eval, UnOp.eval_spec, Option.map]
  | bin w op =>
    simp only [generated, spec, Width.operand, BinOp.row_eval,
      BinOp.eval_spec _ _ w.bits_le.1 op, Option.map]
    cases BinOp.trap? (w.get left) (w.get right) op <;> rfl
  | extend32 =>
    simp only [generated, spec, Val.cast_uint, Val.cast_int, ofNat_toNat, signExtend_eq]
    rfl
  | wrap => simp [generated, spec, signExtend_eq_setWidth_of_le]
  | extend signed => cases signed <;> simp [generated, spec, signExtend]

theorem IntegerOp.compute_eq (op : IntegerOp) (s : Store) :
    op.op.handler.compute s (op.popped left right) =
      match op.spec left right with
      | .ok value => .ok s [value]
      | .error x => .fault x s := by
  cases op with
  | eqz w =>
    show Outcome.ok s [i32Value ((ofBool (w.get right == 0)).setWidth 32)] = _
    rw [ofBool_bits]
    simp [spec, toNat_eq]
  | rel w op =>
    show Outcome.ok s [i32Value ((ofBool (op.eval _ _)).setWidth 32)] = _
    rw [ofBool_bits, RelOp.eval_spec]
    rfl
  | un w op =>
    show Outcome.ok s [w.value (op.eval (w.get right))] = _
    rw [UnOp.eval_spec]
    rfl
  | bin w op =>
    show (match (op.eval (w.get left) (w.get right)).map w.value with
      | .ok value => Outcome.ok s [value]
      | .error x => .fault x s) = _
    rw [BinOp.eval_spec _ _ w.bits_le.1, spec]
    cases BinOp.trap? (w.get left) (w.get right) op <;> rfl
  | extend32 | wrap =>
    rfl
  | extend signed =>
    show Outcome.ok s [i64Value (if signed then _ else right.i32.setWidth 64)] = _
    rw [← ofNat_toNat]
    rfl

end Results

/-- Every integer opcode gives the result of the specification and traps where it is
undefined, and none of its expressions has undefined behaviour.  The signed remainder of
the pair whose quotient overflows is zero. -/
theorem integer_opcodes (op : IntegerOp) (left right : Value) (s : Store) :
    op.generated left right = some (op.spec left right) ∧
      op.op.handler.compute s (op.popped left right) =
        (match op.spec left right with
        | .ok value => .ok s [value]
        | .error x => .fault x s) ∧
      ∀ w : Width, BinOp.spec (intMin w.bits) (allOnes w.bits) .remS = 0 := by
  exact ⟨op.generated_eq left right, op.compute_eq left right s, fun w => by cases w <;> decide⟩

end Waste.Exec
