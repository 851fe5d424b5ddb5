import Gem5Nvm.Lib.Loop

/-!
# Addresses, integer helpers and the ways a simulation stops

An `Addr` is a `uint64_t`, here the natural number it denotes; sums and differences that the
source leaves to wrap around are taken modulo `2 ^ 64` by `u64` and `usub`.

A call that does not return stops the simulator: by `fatal`, `panic` or a failed `assert`, which
`gem5.opt` keeps, by what C++ leaves undefined, as an access through an invalid pointer, or by
running for ever.
-/

namespace Gem5Nvm

def u64 (x : ℕ) : ℕ := x % 2 ^ 64

def usub (a b : ℕ) : ℕ := (a + (2 ^ 64 - b)) % 2 ^ 64

def u32 (x : ℕ) : ℕ := x % 2 ^ 32

def u16 (x : ℕ) : ℕ := x % 2 ^ 16

theorem u64_lt (x : ℕ) : u64 x < 2 ^ 64 := Nat.mod_lt _ (by decide)

theorem u64_of_lt {x : ℕ} (h : x < 2 ^ 64) : u64 x = x := Nat.mod_eq_of_lt h

theorem usub_of_le {a b : ℕ} (h : b ≤ a) (ha : a < 2 ^ 64) : usub a b = a - b := by
  unfold usub
  omega

/-- How a call that does not return ends the simulation. -/
inductive Abort
  | fatal (msg : String)
  | panic (msg : String)
  | assertion (expr : String)
  | undefined (what : String)
  | diverges
  deriving DecidableEq, Repr

/-- A call that may stop the simulation. -/
abbrev Sim := Except Abort

namespace Sim

variable {α β : Type} {x : Sim α} {f : α → Sim β}

@[simp] theorem ok_bind (a : α) : ((Except.ok a : Sim α) >>= f) = f a := rfl

@[simp] theorem pure_eq (a : α) : (pure a : Sim α) = .ok a := rfl

@[simp] theorem error_bind (e : Abort) : ((Except.error e : Sim α) >>= f) = .error e := rfl

theorem bind_eq_ok {b : β} : x >>= f = .ok b ↔ ∃ a, x = .ok a ∧ f a = .ok b := Loop.bind_eq_ok

theorem bind₂_eq_ok {γ : Type} {g : α → β → Sim γ} {c : γ} :
    (x >>= fun a => f a >>= g a) = .ok c ↔ ∃ a, x = .ok a ∧ ∃ b, f a = .ok b ∧ g a b = .ok c := by
  simp only [bind_eq_ok]

end Sim

def assert (b : Bool) (expr : String) : Sim Unit :=
  if b then .ok () else .error (.assertion expr)

variable {b : Bool}

theorem assert_eq_ok {msg : String} : assert b msg = .ok () ↔ b = true := by
  unfold assert
  split_ifs with h <;> simp [h]

def panicIf (b : Bool) (msg : String) : Sim Unit := if b then .error (.panic msg) else .ok ()

variable {msg : String}

theorem panicIf_eq_ok : panicIf b msg = .ok () ↔ b = false := by
  unfold panicIf
  split_ifs with h <;> simp [h]

def fatalIf (b : Bool) (msg : String) : Sim Unit := if b then .error (.fatal msg) else .ok ()

theorem fatalIf_eq_ok : fatalIf b msg = .ok () ↔ b = false := by
  unfold fatalIf
  split_ifs with h <;> simp [h]

/-- No loop of 64-bit counters that ends tests its condition more often than this. -/
def maxRounds : ℕ := 2 ^ 64 + 1

/-- `while (cond s) s = body s` in the simulator. -/
def whileSim {σ : Type} (cond : σ → Bool) (body : σ → Sim σ) (s : σ) : Sim σ :=
  Loop.whileLoop .diverges cond body maxRounds s

/-- `do s = body s; while (cond s)` in the simulator. -/
def doWhileSim {σ : Type} (cond : σ → Bool) (body : σ → Sim σ) (s : σ) : Sim σ :=
  Loop.doWhile .diverges cond body maxRounds s

section While

variable {σ : Type} {cond : σ → Bool} {body : σ → Sim σ} {s s' : σ}

theorem whileSim_stop (h : cond s = false) : whileSim cond body s = .ok s :=
  Loop.whileLoop_stop (by decide) h

theorem whileSim_once (h : cond s = true) (hb : body s = .ok s') (h' : cond s' = false) :
    whileSim cond body s = .ok s' :=
  (Loop.whileLoop_step h hb).trans (Loop.whileLoop_stop (by decide) h')

theorem whileSim_error {e : Abort} (h : cond s = true) (hb : body s = .error e) :
    whileSim cond body s = .error e :=
  Loop.whileLoop_error (by decide) h hb

/-- A loop whose rounds keep `I` and make `V` smaller ends. -/
theorem whileSim_total {I : σ → Prop} {V : σ → ℕ}
    (hround : ∀ s, I s → cond s = true → ∃ s', body s = .ok s' ∧ I s' ∧ V s' < V s)
    (hI : I s) (hV : V s < maxRounds) : ∃ s', whileSim cond body s = .ok s' ∧ I s' ∧
      cond s' = false :=
  Loop.whileLoop_total hround maxRounds hI hV

end While

/-- `divCeil`, from `base/intmath.hh`, on `int64_t`. -/
def divCeil (a b : ℤ) : ℤ := (a + b - 1).tdiv b

/-- A value stored in an `int`. -/
def toInt32 (x : ℤ) : ℤ := (x + 2 ^ 31) % 2 ^ 32 - 2 ^ 31

/-- `roundUp`, from `base/intmath.hh`; `align` is a power of two. -/
def roundUp (val align : ℕ) : ℕ := u64 (val + (align - 1)) / align * align

/-- `roundDown`, from `base/intmath.hh`; `align` is a power of two. -/
def roundDown (val align : ℕ) : ℕ := val / align * align

/-- `mask`, from `base/bitfield.hh`. -/
def mask (nbits : ℕ) : ℕ := if nbits ≥ 64 then 2 ^ 64 - 1 else 2 ^ nbits - 1

/-- `~x` on a `uint64_t`. -/
def unot (x : ℕ) : ℕ := 2 ^ 64 - 1 - x

/-- `bits(val, bit)`, from `base/bitfield.hh`. -/
def bits (val bit : ℕ) : ℕ := val >>> bit &&& mask 1

/-- `insertBits`, from `base/bitfield.hh`, on `uint64_t`. -/
def insertBits (val : ℕ) (first last : ℤ) (bitVal : ℕ) : Sim ℕ := do
  assert (decide (first - last ≥ 0)) "(first - last) >= 0"
  let bmask := u64 (mask (first - last + 1).toNat <<< last.toNat)
  return (u64 (bitVal <<< last.toNat) &&& bmask) ||| (val &&& unot bmask)

/-- `bits(val, first, last)`, from `base/bitfield.hh`. -/
def bitsBetween (val first last : ℕ) : Sim ℕ := do
  assert (decide (first ≥ last)) "(first - last) >= 0"
  return val >>> last &&& mask (first - last + 1)

/-- `mbits(val, first, last)`, from `base/bitfield.hh`. -/
def mbits (val first last : ℕ) : ℕ := val &&& (mask (first + 1) &&& unot (mask last))

/-- `isPowerOf2`, from `base/intmath.hh`. -/
def isPowerOf2 (n : ℕ) : Bool := decide (n ≠ 0 ∧ n &&& (n - 1) = 0)

/-- A test of `floorLog2`: a mask of the upper bits, and their number. -/
def log2Test (s : ℕ × ℕ) (test : ℕ × ℕ) : ℕ × ℕ :=
  if s.2 &&& test.1 ≠ 0 then (s.1 + test.2, s.2 >>> test.2) else s

/-- `floorLog2`, from `base/intmath.hh`, on `uint64_t`. -/
def floorLog2 (x : ℕ) : Sim ℕ := do
  assert (decide (x > 0)) "x > 0"
  let tests := [(0xffffffff00000000, 32), (0x00000000ffff0000, 16), (0x000000000000ff00, 8),
    (0x00000000000000f0, 4), (0x000000000000000c, 2), (0x0000000000000002, 1)]
  return (tests.foldl log2Test (0, x)).1

/-- `ceilLog2`, from `base/intmath.hh`. -/
def ceilLog2 (n : ℕ) : Sim ℕ := do
  assert (decide (n > 0)) "n > 0"
  if n = 1 then return 0
  return (← floorLog2 (n - 1)) + 1

/-- `popCount`, from `base/bitfield.hh`. -/
def popCount (val : ℕ) : ℕ := ((List.range 64).filter fun i => val.testBit i).length

/-- `ctz64`, from `base/bitfield.hh`. -/
def ctz64 (val : ℕ) : ℕ := ((List.range 64).find? fun i => val.testBit i).getD 64

end Gem5Nvm
