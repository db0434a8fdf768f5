/-! Powers of two and ten, the units of binary and decimal numbers. -/
namespace Calculator

def pow2 (n : Nat) : Nat := Nat.pow 2 n

/-- Ten to the power of `n`, whatever `n` is. `Machine.power` has words of 32 bits for exponents. -/
def pow10 (n : Nat) : Nat := Nat.pow 10 n

theorem pow10_pos (n : Nat) : 0 < pow10 n := Nat.pow_pos (by decide)

theorem lt_pow10 (n : Nat) : n < pow10 n := Nat.lt_pow_self (by decide)

end Calculator
