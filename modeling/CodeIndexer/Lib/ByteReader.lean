import Mathlib

/-!
# Reading length-prefixed binary data

Little-endian unsigned integers as `struct.pack` writes them, and readers over a byte string that
either consume what they need or stop with an error. `Reads r bs a` says that `r` consumes exactly
`bs`, whatever follows, and returns `a`; `Reads.bind_run` runs such a reader off the front of a
longer reader.
-/

namespace ByteReader

abbrev Bytes := List UInt8

/-! ### Unsigned integers -/

def packLE : ℕ → ℕ → Bytes
  | 0, _ => []
  | k + 1, n => UInt8.ofNat n :: packLE k (n / 256)

def unpackLE : Bytes → ℕ
  | [] => 0
  | b :: bs => b.toNat + 256 * unpackLE bs

@[simp] theorem length_packLE (k n : ℕ) : (packLE k n).length = k := by
  induction k generalizing n with
  | zero => rfl
  | succ k ih => rw [packLE, List.length_cons, ih]

theorem unpackLE_packLE {k n : ℕ} (h : n < 256 ^ k) : unpackLE (packLE k n) = n := by
  induction k generalizing n with
  | zero =>
    rw [Nat.pow_zero, Nat.lt_one_iff] at h
    exact h.symm
  | succ k ih =>
    have hn : n / 256 < 256 ^ k := by
      rw [Nat.div_lt_iff_lt_mul (by decide), ← Nat.pow_succ]
      exact h
    rw [packLE, unpackLE, ih hn, UInt8.toNat_ofNat']
    exact Nat.mod_add_div n 256

/-- `struct.pack` of a `k`-byte unsigned integer; `none` where it raises. -/
def pack (k n : ℕ) : Option Bytes := if n < 256 ^ k then some (packLE k n) else none

theorem pack_eq_some {k n : ℕ} {bs : Bytes} : pack k n = some bs ↔ n < 256 ^ k ∧ packLE k n = bs := by
  unfold pack
  split
  · rename_i h
    simp [h]
  · rename_i h
    simp [h]

/-! ### Readers -/

abbrev Reader (ε α : Type) := StateT Bytes (Except ε) α

variable {ε α β : Type}

/-- The next `k` bytes, or the error `e` when fewer are left. -/
def readExact (k : ℕ) (e : ε) : Reader ε Bytes := fun bs =>
  if bs.length < k then .error e else .ok (bs.take k, bs.drop k)

def readUInt (k : ℕ) (e : ε) : Reader ε ℕ := do
  let bs ← readExact k e
  return unpackLE bs

def Reads (r : Reader ε α) (bs : Bytes) (a : α) : Prop := ∀ rest, r.run (bs ++ rest) = .ok (a, rest)

namespace Reads

theorem bind_run {r : Reader ε α} {bs : Bytes} {a : α} (h : Reads r bs a) (f : α → Reader ε β)
    (rest : Bytes) : (r >>= f).run (bs ++ rest) = (f a).run rest := by
  rw [StateT.run_bind, h rest]
  rfl

theorem readExact {k : ℕ} {bs : Bytes} (e : ε) (hk : bs.length = k) : Reads (readExact k e) bs bs := by
  intro rest
  show (if (bs ++ rest).length < k then _ else _) = _
  rw [if_neg (by rw [List.length_append]; omega), List.take_left' hk, List.drop_left' hk]

theorem readUInt {k n : ℕ} (e : ε) (h : n < 256 ^ k) : Reads (readUInt k e) (packLE k n) n := by
  intro rest
  unfold ByteReader.readUInt
  rw [(readExact e (length_packLE k n)).bind_run, unpackLE_packLE h]
  rfl

end Reads

end ByteReader
